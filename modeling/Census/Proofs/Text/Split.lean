import Census.Text.Blank

namespace Census.Text

variable {α : Type} [DecidableEq α] {a : α} {xs ys : List α}

theorem splitAt_ne_nil (a : α) (xs : List α) : splitAt a xs ≠ [] := by
  cases xs with
  | nil => simp [splitAt]
  | cons b rest =>
      rw [splitAt]
      by_cases hb : b = a
      · simp [hb]
      · rw [if_neg hb]
        cases splitAt a rest <;> simp

theorem splitAt_append_cons (a : α) (xs ys : List α) :
    splitAt a (xs ++ a :: ys) = splitAt a xs ++ splitAt a ys := by
  induction xs with
  | nil => simp [splitAt]
  | cons b rest ih =>
      rw [List.cons_append, splitAt, splitAt]
      by_cases hb : b = a
      · rw [if_pos hb, if_pos hb, ih, List.cons_append]
      · obtain ⟨part, parts, hparts⟩ := List.exists_cons_of_ne_nil (splitAt_ne_nil a rest)
        rw [if_neg hb, if_neg hb, ih, hparts]
        rfl

theorem splitAt_of_not_mem (h : a ∉ xs) : splitAt a xs = [xs] := by
  induction xs with
  | nil => rfl
  | cons b rest ih =>
      rw [List.mem_cons, not_or] at h
      rw [splitAt, if_neg (Ne.symm h.1), ih h.2]

theorem splitAt_append_of_not_mem (h : a ∉ xs) {first : List α} {parts : List (List α)}
    (hys : splitAt a ys = first :: parts) : splitAt a (xs ++ ys) = (xs ++ first) :: parts := by
  induction xs with
  | nil => exact hys
  | cons b rest ih =>
      rw [List.mem_cons, not_or] at h
      rw [List.cons_append, splitAt, if_neg (Ne.symm h.1), ih h.2]
      rfl

theorem not_mem_of_mem_splitAt {part : List α} (h : part ∈ splitAt a xs) : a ∉ part := by
  induction xs generalizing part with
  | nil =>
      obtain rfl := List.mem_singleton.1 h
      exact List.not_mem_nil
  | cons b rest ih =>
      rw [splitAt] at h
      by_cases hb : b = a
      · rw [if_pos hb, List.mem_cons] at h
        rcases h with rfl | h
        · exact List.not_mem_nil
        · exact ih h
      · obtain ⟨first, parts, hparts⟩ := List.exists_cons_of_ne_nil (splitAt_ne_nil a rest)
        rw [if_neg hb, hparts, List.mem_cons] at h
        rcases h with rfl | h
        · have hfirst := ih (hparts ▸ List.mem_cons_self)
          rw [List.mem_cons, not_or]
          exact ⟨Ne.symm hb, hfirst⟩
        · exact ih (hparts ▸ List.mem_cons_of_mem _ h)

-- The parts make up the list again.
theorem eq_of_splitAt {first : List α} {parts : List (List α)} (h : splitAt a xs = first :: parts) :
    xs = first ++ parts.flatMap (a :: ·) := by
  induction xs generalizing first parts with
  | nil =>
      obtain ⟨rfl, rfl⟩ := List.cons.inj h
      rfl
  | cons b rest ih =>
      obtain ⟨part, others, hrest⟩ := List.exists_cons_of_ne_nil (splitAt_ne_nil a rest)
      rw [splitAt] at h
      by_cases hb : b = a
      · rw [if_pos hb, hrest] at h
        obtain ⟨rfl, rfl⟩ := List.cons.inj h
        rw [ih hrest, hb]
        rfl
      · rw [if_neg hb, hrest] at h
        obtain ⟨rfl, rfl⟩ := List.cons.inj h
        rw [ih hrest, List.cons_append]

end Census.Text
