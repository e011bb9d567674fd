import Census.Proofs.Operators.Yield

namespace Census

open Grammar

-- The lowest level whose operands end in front of a token. A token that no operand can stand in
-- front of has the highest.
def TokenKind.reach : TokenKind → Nat
  | .symbol .rightParen | .symbol .colon | .symbol .semicolon => 0
  | .keyword .kwOr => 1
  | .keyword .kwAnd => 2
  | .symbol .question => 4
  | .symbol .power => 17
  | kind =>
      if kind.isAssignment then 3
      else
        match Binding.ofKind? kind with
        | some binding => 4 + binding.precedence
        | none => 18

namespace TokenKind

theorem reach_of_isAssignment {kind : TokenKind} (h : kind.isAssignment = true) :
    kind.reach = 3 := by
  cases kind with
  | symbol s => cases s <;> simp_all [isAssignment, reach]
  | keyword k => simp [isAssignment] at h
  | _ => simp [isAssignment] at h

theorem reach_of_binding {kind : TokenKind} {binding : Binding}
    (h : Binding.ofKind? kind = some binding) :
    kind.reach = 4 + binding.precedence ∧ 0 < binding.precedence := by
  cases kind with
  | symbol s =>
      cases s <;> simp [Binding.ofKind?, Binding.ofSymbol?] at h <;>
        (subst h; exact ⟨rfl, by decide⟩)
  | keyword k =>
      cases k <;> simp [Binding.ofKind?] at h
      subst h
      exact ⟨rfl, by decide⟩
  | _ => simp [Binding.ofKind?] at h

end TokenKind

theorem Joint.reach_eq (j : Joint) : (TokenKind.keyword j.keyword).reach = j.level + 1 := by
  cases j <;> rfl

namespace BinaryOperator

variable (o : BinaryOperator)

theorem precedence_bounds : 0 < o.binding.precedence ∧ o.binding.precedence ≤ 11 ∧
    (o.binding.rightward = true ↔ o.binding.precedence = 1) := by
  obtain ⟨⟨⟨text, s⟩, hs⟩, binding, h⟩ := o
  simp only [Spelling.symbol] at h ⊢
  cases s <;> simp [Binding.ofSymbol?] at h <;> (subst h; decide)

-- The one rightward operator has the lowest of the levels.
theorem levels : 4 ≤ o.level ∧ o.level ≤ 14 ∧
    (o.level = 4 ∧ o.leftLevel = 5 ∧ o.rightLevel = 4 ∨
      4 < o.level ∧ o.leftLevel = o.level ∧ o.rightLevel = o.level + 1) := by
  have h := o.precedence_bounds
  unfold leftLevel rightLevel level
  split
  · have h₁ := h.2.2.1 ‹_›
    omega
  · have h₁ := mt h.2.2.2 ‹_›
    omega

theorem reach_eq : (TokenKind.symbol o.spelling.symbol).reach = o.level + 1 := by
  have hbinding : Binding.ofKind? (.symbol o.spelling.symbol) = some o.binding := o.binds
  have h := (TokenKind.reach_of_binding hbinding).1
  rw [h, level]
  omega

theorem rightLevel_eq : o.rightLevel = 3 + o.binding.rightMinimum := by
  unfold rightLevel Binding.rightMinimum level
  split <;> omega

end BinaryOperator

-- What follows an operand of a level and does not belong to it.
def Ends (asked : Nat) (ws : List Word) : Prop := ∀ w ∈ ws.head?, w.kind.reach ≤ asked

namespace Ends

variable {asked : Nat} {w : Word} {ws : List Word}

theorem cons (h : w.kind.reach ≤ asked) : Ends asked (w :: ws) := by
  rintro v ⟨rfl⟩
  exact h

theorem mono {asked' : Nat} (h : Ends asked ws) (hle : asked ≤ asked') : Ends asked' ws :=
  fun w hw => Nat.le_trans (h w hw) hle

theorem ne {kind : TokenKind} (h : Ends asked ws) (hk : asked < kind.reach) :
    ∀ w ∈ ws.head?, w.kind ≠ kind := by
  rintro w hw rfl
  exact absurd (h w hw) (by omega)

theorem lookahead {kind : TokenKind} (h : Ends asked ws) (hk : (ws[0]?).map Word.kind = some kind) :
    kind.reach ≤ asked := by
  obtain ⟨w, hw, rfl⟩ := Option.map_eq_some_iff.1 hk
  exact h w (by rwa [List.head?_eq_getElem?])

end Ends

namespace Term

theorem level_binary (o : BinaryOperator) (l r : Term) :
    4 ≤ (binary o l r).level ∧ (binary o l r).level ≤ 14 := by
  have h := o.levels
  exact ⟨h.1, h.2.1⟩

-- From the signs on, every level has one kind of expression.
theorem eq_of_level {e : Term} (h : 15 ≤ e.level) :
    (∃ o x, e = .sign o x) ∨ (∃ l r, e = .power l r) ∨ ∃ name, e = .named name := by
  cases e with
  | named name => exact .inr (.inr ⟨name, rfl⟩)
  | power l r => exact .inr (.inl ⟨l, r, rfl⟩)
  | sign o x => exact .inl ⟨o, x, rfl⟩
  | binary o l r =>
      have hb := level_binary o l r
      omega
  | joined j l r => cases j <;> simp [level, Joint.level] at h
  | _ => simp [level] at h

theorem eq_sign {e : Term} (h : e.level = 15) : ∃ o x, e = .sign o x := by
  obtain h | ⟨l, r, rfl⟩ | ⟨name, rfl⟩ := eq_of_level (by omega : 15 ≤ e.level)
  · exact h
  · simp [level] at h
  · simp [level] at h

theorem eq_power {e : Term} (h : e.level = 16) : ∃ l r, e = .power l r := by
  obtain ⟨o, x, rfl⟩ | h | ⟨name, rfl⟩ := eq_of_level (by omega : 15 ≤ e.level)
  · simp [level] at h
  · exact h
  · simp [level] at h

theorem eq_named {e : Term} (h : 17 ≤ e.level) : ∃ name, e = .named name := by
  obtain ⟨o, x, rfl⟩ | ⟨l, r, rfl⟩ | h := eq_of_level (by omega : 15 ≤ e.level)
  · simp [level] at h
  · simp [level] at h
  · exact h

theorem eq_conditional {e : Term} (h : e.level = 3) :
    (∃ c a b, e = .choose c a b) ∨ ∃ c b, e = .fallback c b := by
  cases e with
  | choose c a b => exact .inl ⟨c, a, b, rfl⟩
  | fallback c b => exact .inr ⟨c, b, rfl⟩
  | binary o l r =>
      have hb := level_binary o l r
      omega
  | joined j l r => cases j <;> simp [level, Joint.level] at h
  | _ => simp [level] at h

theorem eq_assign {e : Term} (h : e.level = 2) : ∃ target o value, e = .assign target o value := by
  cases e with
  | assign target o value => exact ⟨target, o, value, rfl⟩
  | binary o l r =>
      have hb := level_binary o l r
      omega
  | joined j l r => cases j <;> simp [level, Joint.level] at h
  | _ => simp [level] at h

theorem eq_joined {j : Joint} {e : Term} (h : e.level = j.level) : ∃ l r, e = .joined j l r := by
  have hj : j.level ≤ 1 := by cases j <;> decide
  cases e with
  | joined j' l r =>
      cases j <;> cases j' <;> first | exact ⟨l, r, rfl⟩ | cases h
  | binary o l r =>
      have hb := level_binary o l r
      omega
  | _ =>
      simp only [level] at h
      omega

-- How an expression may begin.
def isOpening : TokenKind → Bool
  | .variableName | .symbol .leftParen => true
  | .symbol s => s ∈ [Symbol.bang, .minus, .plus, .tilde, .atSign]
  | _ => false

theorem wordsAt_of_lt {e : Term} {asked : Nat} (h : e.level < asked) :
    e.wordsAt asked = .leftParen :: e.words ++ [.rightParen] := if_pos h

theorem wordsAt_of_le {e : Term} {asked : Nat} (h : asked ≤ e.level) :
    e.wordsAt asked = e.words := if_neg (Nat.not_lt.2 h)

theorem wordsAt_of_lt_append {e : Term} {asked : Nat} (h : e.level < asked) (rest : List Word) :
    e.wordsAt asked ++ rest = .leftParen :: (e.wordsAt 0 ++ .rightParen :: rest) := by
  rw [wordsAt_of_lt h, wordsAt_of_le (Nat.zero_le _), List.append_assoc, List.cons_append]
  rfl

-- Between its own level and the next one lies all the difference.
theorem wordsAt_succ {e : Term} {asked : Nat} (h : e.level ≠ asked) :
    e.wordsAt (asked + 1) = e.wordsAt asked := by
  rcases Nat.lt_or_gt_of_ne h with h | h
  · rw [wordsAt_of_lt h, wordsAt_of_lt (Nat.lt_succ_of_lt h)]
  · rw [wordsAt_of_le h, wordsAt_of_le (Nat.le_of_lt h)]

theorem wordsAt_opening (e : Term) (asked : Nat) :
    ∃ w ws, e.wordsAt asked = w :: ws ∧ isOpening w.kind = true := by
  have enclosed (e : Term) (h : ∃ w ws, e.words = w :: ws ∧ isOpening w.kind = true) (asked : Nat) :
      ∃ w ws, enclose asked e.level e.words = w :: ws ∧ isOpening w.kind = true := by
    unfold enclose
    split
    · exact ⟨_, _, rfl, rfl⟩
    · exact h
  have left {ws vs : List Word} (h : ∃ w us, ws = w :: us ∧ isOpening w.kind = true) :
      ∃ w us, ws ++ vs = w :: us ∧ isOpening w.kind = true := by
    obtain ⟨w, us, rfl, hw⟩ := h
    exact ⟨w, us ++ vs, rfl, hw⟩
  refine enclosed e ?_ asked
  induction e with
  | named name => exact ⟨_, _, rfl, rfl⟩
  | assign target o value _ => exact ⟨_, _, rfl, rfl⟩
  | sign o e _ => exact ⟨_, _, rfl, by
      have ho := o.2
      simp only [Word.kind, isOpening]
      split <;> simp_all⟩
  | joined j l r ihl _ => exact left (enclosed l ihl _)
  | choose c a b ihc _ _ => exact left (left (enclosed c ihc _))
  | fallback c b ihc _ => exact left (enclosed c ihc _)
  | binary o l r ihl _ => exact left (enclosed l ihl _)
  | power l r ihl _ => exact left (enclosed l ihl _)

theorem wordsAt_sign (o : SignOperator) (x : Term) :
    (sign o x).wordsAt 15 = .symbol o.1 :: x.wordsAt 15 := wordsAt_of_le (Nat.le_refl _)

theorem wordsAt_power (l r : Term) :
    (power l r).wordsAt 15 = l.wordsAt 17 ++ .power :: r.wordsAt 15 :=
  wordsAt_of_le (Nat.le_succ _)

theorem wordsAt_binary {o : BinaryOperator} {l r : Term} {asked : Nat}
    (h : asked ≤ (binary o l r).level) : (binary o l r).wordsAt asked =
      l.wordsAt o.leftLevel ++ .symbol o.spelling :: r.wordsAt o.rightLevel :=
  wordsAt_of_le h

theorem wordsAt_choose (c a b : Term) : (choose c a b).wordsAt 3 =
    c.wordsAt 4 ++ .question :: (a.wordsAt 2 ++ .colon :: b.wordsAt 2) := by
  rw [wordsAt_of_le (Nat.le_refl 3), words, List.append_assoc]
  rfl

theorem wordsAt_fallback (c b : Term) : (fallback c b).wordsAt 3 =
    c.wordsAt 4 ++ .question :: .colon :: b.wordsAt 2 := wordsAt_of_le (Nat.le_refl 3)

theorem wordsAt_assign (target : VariableName) (o : AssignmentOperator) (value : Term) :
    (assign target o value).wordsAt 2 = .named target :: .symbol o.1 :: value.wordsAt 2 :=
  wordsAt_of_le (Nat.le_refl 2)

theorem wordsAt_joined (j : Joint) (l r : Term) : (joined j l r).wordsAt j.level =
    l.wordsAt j.level ++ .joint j :: r.wordsAt (j.level + 1) :=
  wordsAt_of_le (Nat.le_refl j.level)

-- What the end of an operand asks for: for binary operators, the level of the last operand.
def endAt (asked : Nat) (e : Term) : Nat :=
  match e with
  | .binary o .. => if o.level < asked then 15 else o.rightLevel
  | _ => 15

theorem endAt_of_single {e : Term} {asked : Nat} (h : e.level < asked ∨ 15 ≤ e.level) :
    e.endAt asked = 15 := by
  cases e with
  | binary o l r =>
      have hb := level_binary o l r
      exact if_pos (h.resolve_right (by omega))
  | _ => rfl

theorem le_endAt {asked : Nat} (h : asked ≤ 15) (e : Term) : asked ≤ e.endAt asked := by
  cases e with
  | binary o l r =>
      have ho := o.levels
      simp only [endAt]
      split <;> omega
  | _ => exact h

-- The left operand of an operator ends in front of it.
theorem endAt_leftLevel (o : BinaryOperator) (l : Term) : o.level + 1 ≤ l.endAt o.leftLevel := by
  have ho := o.levels
  cases l with
  | binary o' x y =>
      have ho' := o'.levels
      simp only [endAt]
      split <;> omega
  | _ =>
      simp only [endAt]
      omega

-- A base begins with a variable or a parenthesis.
theorem wordsAt_base (e : Term) : ∃ w ws, e.wordsAt 17 = w :: ws ∧
    (w.kind = .variableName ∨ w.kind = .symbol .leftParen) := by
  rcases Nat.lt_or_ge e.level 17 with he | he
  · exact ⟨_, _, wordsAt_of_lt he, .inr rfl⟩
  · obtain ⟨name, rfl⟩ := eq_named he
    exact ⟨_, _, rfl, .inl rfl⟩

-- So does everything that stands where a sign asks for its operand, but another sign.
theorem wordsAt_unsigned {e : Term} (he : e.level ≠ 15) : ∃ w ws, e.wordsAt 15 = w :: ws ∧
    (w.kind = .variableName ∨ w.kind = .symbol .leftParen) := by
  by_cases hp : e.level = 16
  · obtain ⟨l, r, rfl⟩ := eq_power hp
    obtain ⟨w, ws, hl, hw⟩ := l.wordsAt_base
    refine ⟨w, ws ++ .power :: r.wordsAt 15, ?_, hw⟩
    rw [wordsAt_power, hl, List.cons_append]
  · rw [← wordsAt_succ he, ← wordsAt_succ hp]
    exact e.wordsAt_base

end Term

end Census
