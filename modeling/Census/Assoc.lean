namespace Census.Assoc

variable {κ υ : Type} [DecidableEq κ]

-- Changes the value of a key in its place, or appends the key with a value of its own.
def alter (k : κ) (f : Option υ → υ) : List (κ × υ) → List (κ × υ)
  | [] => [(k, f none)]
  | (k', v) :: rest =>
      if k' = k then (k', f (some v)) :: rest else (k', v) :: alter k f rest

-- Sets the value of a key; a key that is present keeps its place.
def insert (k : κ) (v : υ) : List (κ × υ) → List (κ × υ) := alter k fun _ => v

def find? (k : κ) (xs : List (κ × υ)) : Option υ := (xs.find? fun x => x.1 = k).map (·.2)

@[simp] theorem find?_nil (k : κ) : find? k ([] : List (κ × υ)) = none := rfl

theorem find?_cons (k k' : κ) (v : υ) (rest : List (κ × υ)) :
    find? k ((k', v) :: rest) = if k' = k then some v else find? k rest := by
  unfold find?
  by_cases h : k' = k <;> simp [h]

-- An altered key maps to what was made of its old value.
theorem find?_alter_self (k : κ) (f : Option υ → υ) (xs : List (κ × υ)) :
    find? k (alter k f xs) = some (f (find? k xs)) := by
  induction xs with
  | nil => simp [alter, find?_cons]
  | cons x rest ih =>
      obtain ⟨k', v⟩ := x
      by_cases h : k' = k <;> simp [alter, find?_cons, h, ih]

-- All other keys keep their values.
theorem find?_alter_of_ne {k k' : κ} (h : k' ≠ k) (f : Option υ → υ) (xs : List (κ × υ)) :
    find? k' (alter k f xs) = find? k' xs := by
  induction xs with
  | nil => simp [alter, find?_cons, h.symm]
  | cons x rest ih =>
      obtain ⟨k₀, v⟩ := x
      by_cases h₀ : k₀ = k
      · subst h₀
        simp [alter, find?_cons, h.symm]
      · by_cases h₁ : k₀ = k'
        · subst h₁
          simp [alter, find?_cons, h₀]
        · simp [alter, find?_cons, h₀, h₁, ih]

-- Only a new key changes the sequence of keys, and it goes to the end.
theorem keys_alter (k : κ) (f : Option υ → υ) (xs : List (κ × υ)) :
    (alter k f xs).map (·.1) =
      if k ∈ xs.map (·.1) then xs.map (·.1) else xs.map (·.1) ++ [k] := by
  induction xs with
  | nil => simp [alter]
  | cons x rest ih =>
      obtain ⟨k', v⟩ := x
      by_cases h : k' = k
      · simp [alter, h]
      · simp only [alter, h, if_false, List.map_cons, ih, List.mem_cons, Ne.symm h, false_or]
        split <;> simp

end Census.Assoc
