import Census.Assoc

namespace Census

section Lists

variable {α β : Type}

theorem nodup_eraseDups [BEq α] [LawfulBEq α] (xs : List α) : xs.eraseDups.Nodup := by
  generalize hn : xs.length = n
  induction n using Nat.strongRecOn generalizing xs with
  | ind n ih =>
      cases xs with
      | nil => simp
      | cons x xs =>
          have hshorter : (xs.filter fun y => !y == x).length < n := by
            have hlength := List.length_filter_le (fun y => !y == x) xs
            rw [List.length_cons] at hn
            omega
          have hrest := ih _ hshorter (xs.filter fun y => !y == x) rfl
          rw [List.eraseDups_cons, List.nodup_cons]
          exact ⟨by simp, hrest⟩

theorem eraseDups_of_nodup [BEq α] [LawfulBEq α] {xs : List α} (h : xs.Nodup) : xs.eraseDups = xs := by
  induction xs with
  | nil => rfl
  | cons x xs ih =>
      obtain ⟨hx, hxs⟩ := List.nodup_cons.1 h
      have hfilter : (xs.filter fun y => !y == x) = xs := by
        rw [List.filter_eq_self]
        intro y hy
        have hne : y ≠ x := by
          rintro rfl
          exact hx hy
        simpa using hne
      rw [List.eraseDups_cons, hfilter, ih hxs]

-- Only an item that was not there before comes to the end.
theorem eraseDups_concat [BEq α] [LawfulBEq α] (xs : List α) (x : α) [Decidable (x ∈ xs.eraseDups)] :
    (xs ++ [x]).eraseDups = if x ∈ xs.eraseDups then xs.eraseDups else xs.eraseDups ++ [x] := by
  have hsingle : [x].eraseDups = [x] := eraseDups_of_nodup (by simp)
  rw [List.eraseDups_append, List.removeAll]
  by_cases hx : x ∈ xs
  · rw [if_pos (List.mem_eraseDups.2 hx), List.filter_cons_of_neg (by simpa using hx)]
    simp
  · rw [if_neg (mt List.mem_eraseDups.1 hx), List.filter_cons_of_pos (by simpa using hx),
      List.filter_nil, hsingle]

-- What is read from every item of a list is what was there.
theorem mapM_map_eq {f : α → β} {g : β → Option α} {xs ys : List α}
    (h : ∀ x ∈ xs, ∀ y, g (f x) = some y → y = x) (hread : (xs.map f).mapM g = some ys) :
    ys = xs := by
  induction xs generalizing ys with
  | nil => simpa using hread.symm
  | cons x xs ih =>
      rw [List.map_cons, List.mapM_cons] at hread
      obtain ⟨y, hy, hread⟩ := Option.bind_eq_some_iff.1 hread
      obtain ⟨zs, hzs, hread⟩ := Option.bind_eq_some_iff.1 hread
      obtain rfl : y :: zs = ys := Option.some.inj hread
      rw [h x List.mem_cons_self y hy, ih (fun x hx => h x (List.mem_cons_of_mem _ hx)) hzs]

theorem mapM_map_some {γ : Type} {f : α → β} {g : β → Option γ} {h : α → γ} {xs : List α}
    (hread : ∀ x ∈ xs, g (f x) = some (h x)) : (xs.map f).mapM g = some (xs.map h) := by
  induction xs with
  | nil => rfl
  | cons x xs ih =>
      have hx := hread x List.mem_cons_self
      have hxs := ih fun x hx => hread x (List.mem_cons_of_mem _ hx)
      rw [List.map_cons, List.mapM_cons, hx, hxs]
      rfl

end Lists

namespace Assoc

variable {κ υ : Type} [DecidableEq κ] {k : κ} {f : Option υ → υ} {xs : List (κ × υ)}

theorem mem_of_find? {v : υ} (h : find? k xs = some v) : (k, v) ∈ xs := by
  obtain ⟨x, hx, rfl⟩ := Option.map_eq_some_iff.1 h
  have hkey : x.1 = k := by simpa using List.find?_some hx
  rw [← hkey]
  exact List.mem_of_find?_eq_some hx

-- A change leaves the other values as they were and makes one of an old value or of none.
theorem mem_alter {x : κ × υ} (h : x ∈ alter k f xs) :
    x ∈ xs ∨ x = (k, f none) ∨ ∃ v, (k, v) ∈ xs ∧ x = (k, f (some v)) := by
  induction xs with
  | nil => exact .inr (.inl (by simpa [alter] using h))
  | cons y rest ih =>
      obtain ⟨k', v⟩ := y
      by_cases hk : k' = k
      · subst hk
        rw [alter, if_pos rfl, List.mem_cons] at h
        rcases h with rfl | h
        · exact .inr (.inr ⟨v, List.mem_cons_self, rfl⟩)
        · exact .inl (List.mem_cons_of_mem _ h)
      · rw [alter, if_neg hk, List.mem_cons] at h
        rcases h with rfl | h
        · exact .inl List.mem_cons_self
        · rcases ih h with h | h | ⟨w, hw, h⟩
          · exact .inl (List.mem_cons_of_mem _ h)
          · exact .inr (.inl h)
          · exact .inr (.inr ⟨w, List.mem_cons_of_mem _ hw, h⟩)

-- A change of all values can be made before or after one of them is altered.
theorem map_alter {ω : Type} {f' : Option ω → ω} {g : υ → ω} (h : ∀ old, g (f old) = f' (old.map g)) :
    (alter k f xs).map (fun x => (x.1, g x.2)) = alter k f' (xs.map fun x => (x.1, g x.2)) := by
  induction xs with
  | nil => simp [alter, h]
  | cons x rest ih =>
      obtain ⟨k', v⟩ := x
      by_cases hk : k' = k
      · simp [alter, hk, h]
      · simp [alter, hk, ih]

theorem nodup_alter (h : (xs.map (·.1)).Nodup) : ((alter k f xs).map (·.1)).Nodup := by
  rw [keys_alter]
  by_cases hk : k ∈ xs.map (·.1)
  · rwa [if_pos hk]
  · rw [if_neg hk, List.nodup_append]
    refine ⟨h, by simp, fun a ha b hb => ?_⟩
    rw [List.mem_singleton] at hb
    rintro rfl
    exact hk (hb ▸ ha)

theorem alter_of_not_mem (h : k ∉ xs.map (·.1)) : alter k f xs = xs ++ [(k, f none)] := by
  induction xs with
  | nil => rfl
  | cons x rest ih =>
      obtain ⟨k', v⟩ := x
      rw [List.map_cons, List.mem_cons, not_or] at h
      rw [alter, if_neg (Ne.symm h.1), ih h.2, List.cons_append]

-- Keys that differ are inserted in their order.
theorem foldl_insert (done xs : List (κ × υ)) (h : ((done ++ xs).map (·.1)).Nodup) :
    xs.foldl (fun done x => insert x.1 x.2 done) done = done ++ xs := by
  induction xs generalizing done with
  | nil => simp
  | cons x rest ih =>
      have hx : x.1 ∉ done.map (·.1) := by
        rw [List.map_append, List.nodup_append] at h
        intro hmem
        exact h.2.2 x.1 hmem x.1 (by simp) rfl
      have hinsert : insert x.1 x.2 done = done ++ [x] := alter_of_not_mem hx
      rw [List.foldl_cons, hinsert, ih _ (by simpa using h), List.append_assoc,
        List.singleton_append]

-- Of keys that differ, each stands for one value.
theorem filter_key (h : (xs.map (·.1)).Nodup) {x : κ × υ} (hx : x ∈ xs) :
    (xs.filter fun y => y.1 = x.1) = [x] := by
  induction xs with
  | nil => cases hx
  | cons y rest ih =>
      rw [List.map_cons, List.nodup_cons] at h
      rcases List.mem_cons.1 hx with rfl | hx
      · have hrest : (rest.filter fun y => y.1 = x.1) = [] := by
          rw [List.filter_eq_nil_iff]
          intro y hy heq
          have hkey : y.1 = x.1 := by simpa using heq
          exact h.1 (hkey ▸ List.mem_map_of_mem hy)
        rw [List.filter_cons_of_pos (by simp), hrest]
      · have hne : y.1 ≠ x.1 := by
          intro hkey
          exact h.1 (hkey ▸ List.mem_map_of_mem hx)
        rw [List.filter_cons_of_neg (by simpa using hne), ih h.2 hx]

-- Where the values are computed from the keys, a change of one value changes what they are
-- computed by.
theorem alter_map_keys {keys : List κ} {g g' : κ → υ} (h : keys.Nodup) (hold : f (some (g k)) = g' k)
    (hnew : k ∉ keys → f none = g' k) (hother : ∀ k', k' ≠ k → g' k' = g k') :
    alter k f (keys.map fun k' => (k', g k')) =
      (if k ∈ keys then keys else keys ++ [k]).map fun k' => (k', g' k') := by
  induction keys with
  | nil => simp [alter, hnew List.not_mem_nil]
  | cons x rest ih =>
      obtain ⟨hx, hrest⟩ := List.nodup_cons.1 h
      by_cases hk : x = k
      · subst hk
        have hbehind : (rest.map fun k' => (k', g k')) = rest.map fun k' => (k', g' k') := by
          refine List.map_congr_left fun k' hk' => ?_
          rw [hother k' (fun heq => hx (heq ▸ hk'))]
        rw [List.map_cons, alter, if_pos rfl, if_pos List.mem_cons_self, hbehind, hold, List.map_cons]
      · have hmem : k ∈ x :: rest ↔ k ∈ rest := by simp [Ne.symm hk]
        rw [List.map_cons, alter, if_neg hk, ih hrest fun hnot => hnew (mt hmem.1 hnot)]
        simp only [hmem]
        split <;> simp [hother x hk]

end Assoc

end Census
