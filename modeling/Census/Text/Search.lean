namespace Census.Text

-- The number of characters before the first place whose remaining text satisfies `p`.
def seek (p : List Char → Bool) : List Char → Option Nat
  | [] => none
  | c :: rest => if p (c :: rest) then some 0 else (seek p rest).map (· + 1)

-- The length of the longest initial part whose characters all satisfy `p`.
def run (p : Char → Bool) (cs : List Char) : Nat := (cs.takeWhile p).length

-- The number of bytes that a text takes.
def utf8Size : List Char → Nat
  | [] => 0
  | c :: rest => c.utf8Size + utf8Size rest

theorem seek_lt_length {p : List Char → Bool} {cs : List Char} {n : Nat}
    (h : seek p cs = some n) : n < cs.length := by
  induction cs generalizing n with
  | nil => simp [seek] at h
  | cons c rest ih =>
      rw [seek] at h
      split at h
      · cases h
        simp
      · obtain ⟨m, hm, rfl⟩ := Option.map_eq_some_iff.1 h
        exact Nat.succ_lt_succ (ih hm)

theorem seek_holds {p : List Char → Bool} {cs : List Char} {n : Nat} (h : seek p cs = some n) :
    p (cs.drop n) = true := by
  induction cs generalizing n with
  | nil => cases h
  | cons c rest ih =>
      rw [seek] at h
      split at h
      · cases h
        assumption
      · obtain ⟨m, hm, rfl⟩ := Option.map_eq_some_iff.1 h
        exact ih hm

theorem utf8Size_append (cs ds : List Char) :
    utf8Size (cs ++ ds) = utf8Size cs + utf8Size ds := by
  induction cs with
  | nil => simp [utf8Size]
  | cons c cs ih => simp [utf8Size, ih, Nat.add_assoc]

theorem utf8Size_take_add_drop (n : Nat) (cs : List Char) :
    utf8Size (cs.take n) + utf8Size (cs.drop n) = utf8Size cs := by
  rw [← utf8Size_append, List.take_append_drop]

theorem utf8Size_toLower (c : Char) : c.toLower.utf8Size = c.utf8Size := by
  unfold Char.toLower
  split
  · rename_i h
    have hc : c.val.toNat ≤ 90 := UInt32.le_iff_toNat_le.1 h.2
    have hadd : (c.val + ('a'.val - 'A'.val)).toNat = c.val.toNat + 32 := by
      rw [UInt32.toNat_add]
      exact Nat.mod_eq_of_lt (by change _ + 32 < _; omega)
    rw [Char.utf8Size_eq_one_iff.2, Char.utf8Size_eq_one_iff.2]
    · exact UInt32.le_iff_toNat_le.2 (Nat.le_trans hc (by decide))
    · exact UInt32.le_iff_toNat_le.2 (by rw [hadd]; change _ ≤ 127; omega)
  · rfl

theorem utf8Size_map_toLower (cs : List Char) :
    utf8Size (cs.map Char.toLower) = utf8Size cs := by
  induction cs with
  | nil => rfl
  | cons c cs ih => simp only [List.map_cons, utf8Size, utf8Size_toLower, ih]

theorem run_le_length (p : Char → Bool) (cs : List Char) : run p cs ≤ cs.length :=
  (List.takeWhile_prefix p).length_le

end Census.Text
