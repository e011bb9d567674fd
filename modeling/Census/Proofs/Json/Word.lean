import Census.Json.Word

namespace Census.Json.Word

-- What ends a number in front of it: nothing more, a comma or a closing bracket.
def Ended (rest : List Char) : Prop := ∀ c ∈ rest.head?, c = ',' ∨ c = ']' ∨ c = '\x7d'

theorem ended_nil : Ended [] := by simp [Ended]

theorem ended_comma (rest : List Char) : Ended (',' :: rest) := by simp [Ended]

theorem ended_bracket (rest : List Char) : Ended (']' :: rest) := by simp [Ended]

theorem ended_brace (rest : List Char) : Ended ('\x7d' :: rest) := by simp [Ended]

section Strings

theorem hexDigit?_digitChar {n : Nat} (h : n < 16) : hexDigit? n.digitChar = some n := by
  have hall : ∀ n < 16, hexDigit? (Nat.digitChar n) = some n := by decide
  exact hall n h

-- A control character is read back from its number.
theorem numbered?_control {c : Char} (h : c.toNat < 0x20) (rest : List Char) :
    numbered? ('0' :: '0' :: Nat.digitChar (c.toNat / 16) :: Nat.digitChar (c.toNat % 16) :: rest) =
      some (c, 4) := by
  have hhigh := hexDigit?_digitChar (n := c.toNat / 16) (by omega)
  have hlow := hexDigit?_digitChar (n := c.toNat % 16) (by omega)
  have hzero : hexDigit? '0' = some 0 := by decide
  have hvalue : ((0 * 16 + 0) * 16 + c.toNat / 16) * 16 + c.toNat % 16 = c.toNat := by omega
  have hhex : hex4? ('0' :: '0' :: Nat.digitChar (c.toNat / 16) ::
      Nat.digitChar (c.toNat % 16) :: rest) = some c.toNat := by
    simp only [hex4?, List.take_succ_cons, List.take_zero, hhigh, hlow, hzero, Option.bind_eq_bind,
      Option.bind_some, Option.pure_def, hvalue]
  have hplain : ¬ 0xd800 ≤ c.toNat := by omega
  have hplain' : ¬ 0xdc00 ≤ c.toNat := by omega
  simp [numbered?, hhex, hplain, hplain']

-- A character stands for itself, or for itself behind a backslash.
theorem escapeChar_cases (c : Char) :
    (escapeChar c = [c] ∧ c ≠ '"' ∧ c ≠ '\\' ∧ ¬ c.toNat < 0x20) ∨
      ∃ tail, escapeChar c = '\\' :: tail ∧
        ∀ rest, escaped? (tail ++ rest) = some (c, tail.length) := by
  unfold escapeChar
  by_cases hquote : c = '"'
  · subst hquote
    exact .inr ⟨['"'], rfl, fun _ => rfl⟩
  by_cases hslash : c = '\\'
  · subst hslash
    exact .inr ⟨['\\'], rfl, fun _ => rfl⟩
  rw [if_neg hquote, if_neg hslash]
  by_cases hback : c = '\x08'
  · subst hback
    exact .inr ⟨['b'], rfl, fun _ => rfl⟩
  by_cases htab : c = '\t'
  · subst htab
    exact .inr ⟨['t'], rfl, fun _ => rfl⟩
  by_cases hline : c = '\n'
  · subst hline
    exact .inr ⟨['n'], rfl, fun _ => rfl⟩
  by_cases hform : c = '\x0c'
  · subst hform
    exact .inr ⟨['f'], rfl, fun _ => rfl⟩
  by_cases hreturn : c = '\r'
  · subst hreturn
    exact .inr ⟨['r'], rfl, fun _ => rfl⟩
  rw [if_neg hback, if_neg htab, if_neg hline, if_neg hform, if_neg hreturn]
  by_cases hcontrol : c.toNat < 0x20
  · rw [if_pos hcontrol]
    refine .inr ⟨_, rfl, fun rest => ?_⟩
    have hnumbered := numbered?_control hcontrol rest
    simp only [List.cons_append, List.nil_append, escaped?, hnumbered]
    rfl
  · rw [if_neg hcontrol]
    exact .inl ⟨rfl, hquote, hslash, hcontrol⟩

theorem stringBody?_skip (cs rest : List Char) :
    stringBody? cs.length (cs ++ rest) =
      (stringBody? 0 rest).map fun body => (body.1, body.2 + cs.length) := by
  induction cs with
  | nil => simp
  | cons c cs ih =>
      rw [List.length_cons, List.cons_append, stringBody?, ih, Option.map_map]
      rfl

theorem stringBody?_escapeChar (c : Char) (rest : List Char) :
    stringBody? 0 (escapeChar c ++ rest) =
      (stringBody? 0 rest).map fun body => (c :: body.1, body.2 + (escapeChar c).length) := by
  rcases escapeChar_cases c with ⟨hself, hquote, hslash, hcontrol⟩ | ⟨tail, hescape, hread⟩
  · rw [hself, List.singleton_append, stringBody?]
    simp only [hquote, hslash, hcontrol, if_false]
    rfl
  · rw [hescape, List.cons_append, stringBody?]
    simp only [hread rest, stringBody?_skip, Option.map_map]
    rfl

-- An escaped text is read back up to its quote.
theorem stringBody?_escape (cs rest : List Char) :
    stringBody? 0 (escape cs ++ '"' :: rest) = some (cs, (escape cs).length + 1) := by
  induction cs with
  | nil => rfl
  | cons c cs ih =>
      have hescape : escape (c :: cs) = escapeChar c ++ escape cs := rfl
      rw [hescape, List.append_assoc, stringBody?_escapeChar, ih, List.length_append]
      simp only [Option.map_some, Option.some.injEq, Prod.mk.injEq, true_and]
      omega

end Strings

section Numbers

-- What an integer comes back as: one of more than 64 bits only as a decimal.
def rereadInteger (n : Int) : Word :=
  if isShort n then .integer n else .decimal (toString n ++ ".0")

theorem isDigit_of_ended {c : Char} (h : c = ',' ∨ c = ']' ∨ c = '\x7d') : c.isDigit = false := by
  rcases h with rfl | rfl | rfl <;> rfl

theorem run_digits {digits rest : List Char} (hdigits : ∀ c ∈ digits, c.isDigit = true)
    (h : Ended rest) : Text.run Char.isDigit (digits ++ rest) = digits.length := by
  have hrest : rest.takeWhile Char.isDigit = [] := by
    cases rest with
    | nil => rfl
    | cons c rest =>
        have hc := isDigit_of_ended (h c rfl)
        simp [hc]
  rw [Text.run, List.takeWhile_append_of_pos hdigits, hrest, List.append_nil]

theorem head?_toDigits_append (n : Nat) (rest : List Char) :
    (Nat.toDigits 10 n ++ rest).head? = (Nat.toDigits 10 n).head? := by
  rw [List.head?_append, Option.or_of_isSome]
  simp

-- Only zero begins with a zero.
theorem head?_toDigits {n : Nat} (h : 0 < n) : (Nat.toDigits 10 n).head? ≠ some '0' := by
  induction n using Nat.strongRecOn with
  | ind n ih =>
      rw [Nat.toDigits_eq_if (by decide)]
      by_cases hlow : n < 10
      · have hall : ∀ n < 10, 0 < n → Nat.digitChar n ≠ '0' := by decide
        simpa [hlow] using hall n hlow h
      · have hhead := ih (n / 10) (by omega) (by omega)
        rw [if_neg hlow, head?_toDigits_append]
        exact hhead

theorem wholeLength_digits (n : Nat) {rest : List Char} (h : Ended rest) :
    wholeLength (Nat.toDigits 10 n ++ rest) = (Nat.toDigits 10 n).length := by
  have hdigits : ∀ c ∈ Nat.toDigits 10 n, c.isDigit = true := fun c hc =>
    Nat.isDigit_of_mem_toDigits (by decide) (by decide) hc
  unfold wholeLength
  by_cases hn : n = 0
  · subst hn
    rfl
  · have hhead := head?_toDigits (Nat.pos_of_ne_zero hn)
    rw [head?_toDigits_append, if_neg hhead]
    exact run_digits hdigits h

theorem fractionLength_ended {rest : List Char} (h : Ended rest) : fractionLength rest = 0 := by
  have hpoint : rest.head? ≠ some '.' := by
    intro hhead
    have hc := h '.' hhead
    revert hc
    decide
  simp [fractionLength, hpoint]

theorem exponentLength_ended {rest : List Char} (h : Ended rest) : exponentLength rest = 0 := by
  cases rest with
  | nil => rfl
  | cons c rest =>
      rcases h c rfl with rfl | rfl | rfl <;> rfl

theorem digitsValue_toDigits (n : Nat) : digitsValue (Nat.toDigits 10 n) = n := by
  have h : digitsValue (Nat.toDigits 10 n) = Nat.ofDigitChars 10 (Nat.toDigits 10 n) 0 :=
    Nat.ofDigitChars_eq_foldl.symm
  rw [h, Nat.ofDigitChars_ten_toDigits]

-- A natural number is read up to what ends it.
theorem number?_toDigits (n : Nat) {rest : List Char} (h : Ended rest) :
    number? (Nat.toDigits 10 n ++ rest) = some (rereadInteger n, (Nat.toDigits 10 n).length) := by
  have hsign : (Nat.toDigits 10 n ++ rest).head? ≠ some '-' := by
    rw [head?_toDigits_append]
    intro hhead
    have hdigit : ('-' : Char).isDigit = true :=
      Nat.isDigit_of_mem_toDigits (by decide) (by decide) (List.mem_of_mem_head? hhead)
    revert hdigit
    decide
  have hwhole := wholeLength_digits n h
  have hlength := Nat.length_toDigits_pos (b := 10) (n := n)
  have hnumber : String.ofList (Nat.toDigits 10 n ++ ['.', '0']) = toString (n : Int) ++ ".0" := by
    rw [String.ofList_append]
    rfl
  simp only [number?, hsign, decide_false, if_false, List.drop_zero, hwhole,
    Nat.zero_add, List.drop_left, fractionLength_ended h, exponentLength_ended h, Nat.add_zero,
    List.take_left, digitsValue_toDigits, Bool.false_and, Bool.false_or, decide_true,
    Bool.and_self, if_true, Nat.pos_iff_ne_zero.1 hlength, hnumber]
  unfold rereadInteger
  by_cases hshort : isShort n
  · simp [hshort]
  · simp [hshort]

end Numbers

section Texts

theorem all?_skip (cs rest : List Char) : all? cs.length (cs ++ rest) = all? 0 rest := by
  induction cs with
  | nil => rfl
  | cons c cs ih => exact ih

-- The words behind a first word do not depend on it.
theorem all?_of_first? {c : Char} {cs rest : List Char} {w : Word} (hspace : isSpace c = false)
    (h : first? (c :: cs ++ rest) = some (w, (c :: cs).length)) :
    all? 0 (c :: cs ++ rest) = (all? 0 rest).map (w :: ·) := by
  rw [List.cons_append] at h ⊢
  simp only [all?, hspace, h, List.length_cons, Nat.add_sub_cancel, all?_skip]
  rfl

-- The words of a fixed form are read wherever they stand.
theorem all?_literal {w : Word} (h : w ∈ literals.map (·.2)) (rest : List Char) :
    all? 0 (w.text ++ rest) = (all? 0 rest).map (w :: ·) := by
  simp only [literals, List.map_cons, List.map_nil, List.mem_cons, List.not_mem_nil, or_false] at h
  have hread (c : Char) (cs : List Char) (w : Word) (hspace : isSpace c = false)
      (hfirst : first? (c :: cs ++ rest) = some (w, (c :: cs).length)) :
      all? 0 (c :: cs ++ rest) = (all? 0 rest).map (w :: ·) := all?_of_first? hspace hfirst
  rcases h with rfl | rfl | rfl | rfl | rfl | rfl | rfl | rfl | rfl
  · exact hread '\x7b' [] .openObject rfl (by simp [first?, literals]; rfl)
  · exact hread '\x7d' [] .closeObject rfl (by simp [first?, literals]; rfl)
  · exact hread '[' [] .openArray rfl (by simp [first?, literals]; rfl)
  · exact hread ']' [] .closeArray rfl (by simp [first?, literals]; rfl)
  · exact hread ',' [] .comma rfl (by simp [first?, literals]; rfl)
  · exact hread ':' [] .colon rfl (by simp [first?, literals]; rfl)
  · exact hread 'n' ['u', 'l', 'l'] .null rfl (by simp [first?, literals]; rfl)
  · exact hread 't' ['r', 'u', 'e'] (.bool true) rfl (by simp [first?, literals]; rfl)
  · exact hread 'f' ['a', 'l', 's', 'e'] (.bool false) rfl (by simp [first?, literals]; rfl)

theorem all?_string (s : String) (rest : List Char) :
    all? 0 ((Word.string s).text ++ rest) = (all? 0 rest).map (.string s :: ·) := by
  have hbody := stringBody?_escape s.toList rest
  have hfirst : first? ('"' :: (escape s.toList ++ ['"']) ++ rest) =
      some (.string s, ('"' :: (escape s.toList ++ ['"'])).length) := by
    simp [first?, literals, hbody]
  exact all?_of_first? (by decide) hfirst

theorem all?_nat (n : Nat) {rest : List Char} (h : Ended rest) :
    all? 0 ((Word.integer n).text ++ rest) = (all? 0 rest).map (rereadInteger n :: ·) := by
  have htext : (Word.integer n).text = Nat.toDigits 10 n := by
    rw [text, ← Nat.toList_repr]
    rfl
  obtain ⟨c, cs, hcs⟩ := List.exists_cons_of_ne_nil (Nat.toDigits_ne_nil (b := 10) (n := n))
  have hdigit : c.isDigit = true :=
    Nat.isDigit_of_mem_toDigits (by decide) (by decide) (hcs ▸ List.mem_cons_self)
  have hother (d : Char) (hd : d.isDigit = false) : c ≠ d := by
    rintro rfl
    rw [hdigit] at hd
    cases hd
  have hnumber := number?_toDigits n h
  rw [hcs] at htext hnumber
  rw [htext]
  have hspace : isSpace c = false := by
    simp [isSpace, hother ' ' rfl, hother '\t' rfl, hother '\n' rfl, hother '\r' rfl]
  have hfirst : first? (c :: cs ++ rest) = some (rereadInteger n, (c :: cs).length) := by
    have hletter (d : Char) (hd : d.isDigit = false) : d ≠ c := (hother d hd).symm
    simp [first?, literals, hother '"' rfl, hletter '\x7b' rfl, hletter '\x7d' rfl,
      hletter '[' rfl, hletter ']' rfl, hletter ',' rfl, hletter ':' rfl, hletter 'n' rfl,
      hletter 't' rfl, hletter 'f' rfl]
    exact hnumber
  exact all?_of_first? hspace hfirst

end Texts

end Census.Json.Word
