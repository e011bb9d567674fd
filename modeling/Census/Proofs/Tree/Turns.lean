import Census.Proofs.Tree.Subtrees

namespace Census

-- The nodes that a loop puts around what has been read so far, which becomes their first child.
def NodeKind.wraps : NodeKind → Bool
  | .binary | .instanceOf | .call | .memberAccess | .staticAccess | .index
  | .postfixOperation => true
  | _ => false

namespace Tree

variable {α β : Type} {wraps : α → Bool}

mutual

-- The height of a tree where the step from a node that wraps to its first child is free.
def turns (wraps : α → Bool) : Tree α → Nat
  | ⟨_, []⟩ => 1
  | ⟨a, t :: ts⟩ => max (t.turns wraps + if wraps a then 0 else 1) (turnsAll wraps ts + 1)

def turnsAll (wraps : α → Bool) : List (Tree α) → Nat
  | [] => 0
  | t :: ts => max (t.turns wraps) (turnsAll wraps ts)

end

theorem turnsAll_le {ts : List (Tree α)} {b : Nat} (h : ∀ t ∈ ts, t.turns wraps ≤ b) :
    turnsAll wraps ts ≤ b := by
  induction ts with
  | nil => exact Nat.zero_le b
  | cons t ts ih =>
      obtain ⟨ht, hts⟩ := List.forall_mem_cons.1 h
      exact Nat.max_le.2 ⟨ht, ih hts⟩

theorem turns_node_le {a : α} {ts : List (Tree α)} {b : Nat} (h : ∀ t ∈ ts, t.turns wraps ≤ b) :
    turns wraps ⟨a, ts⟩ ≤ b + 1 := by
  cases ts with
  | nil =>
      rw [turns]
      omega
  | cons t ts =>
      obtain ⟨ht, hts⟩ := List.forall_mem_cons.1 h
      have hrest := turnsAll_le hts
      rw [turns]
      split <;> omega

theorem turns_wrap_le {a : α} (ha : wraps a = true) {t : Tree α} {ts : List (Tree α)} {b : Nat}
    (ht : t.turns wraps ≤ b + 1) (h : ∀ t ∈ ts, t.turns wraps ≤ b) :
    turns wraps ⟨a, t :: ts⟩ ≤ b + 1 := by
  have hrest := turnsAll_le h
  rw [turns, if_pos ha]
  omega

mutual

theorem turns_map (f : α → β) (wraps : β → Bool) :
    (t : Tree α) → (t.map f).turns wraps = t.turns fun a => wraps (f a)
  | ⟨_, []⟩ => rfl
  | ⟨a, t :: ts⟩ => by rw [map, mapAll, turns, turns, turns_map f wraps t, turnsAll_map f wraps ts]

theorem turnsAll_map (f : α → β) (wraps : β → Bool) :
    (ts : List (Tree α)) → turnsAll wraps (mapAll f ts) = turnsAll (fun a => wraps (f a)) ts
  | [] => rfl
  | t :: ts => by rw [mapAll, turnsAll, turnsAll, turns_map f wraps t, turnsAll_map f wraps ts]

end

mutual

theorem height_map (f : α → β) : (t : Tree α) → (t.map f).height = t.height
  | ⟨_, ts⟩ => by rw [map, height, height, heightAll_map f ts]

theorem heightAll_map (f : α → β) : (ts : List (Tree α)) → heightAll (mapAll f ts) = heightAll ts
  | [] => rfl
  | t :: ts => by rw [mapAll, heightAll, heightAll, height_map f t, heightAll_map f ts]

end

end Tree

end Census
