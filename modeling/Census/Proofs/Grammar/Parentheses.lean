import Census.Proofs.Grammar.Steps

namespace Census.Grammar

-- A number in `k` pairs of parentheses, in front of `rest`.
def wrapped (k : Nat) (rest : List Terminal) : List Terminal :=
  List.replicate k ⟨.symbol .leftParen, false⟩ ++
    ⟨.integer, false⟩ :: (List.replicate k ⟨.symbol .rightParen, false⟩ ++ rest)

theorem wrapped_succ (k : Nat) (rest : List Terminal) : wrapped (k + 1) rest =
    ⟨.symbol .leftParen, false⟩ :: wrapped k (⟨.symbol .rightParen, false⟩ :: rest) := by
  rw [wrapped, List.replicate_succ, List.replicate_succ', List.append_assoc]
  rfl

-- What becomes of the number where `levels` levels may be entered: the expression takes one of
-- them, and so does every pair of parentheses.
def wrappedOutcome (levels k i : Nat) (rest : List Terminal) : Except Failure (Draft × Input) :=
  if k < levels then .ok (.leaf (.literal .integer) (i + k), ⟨i + (2 * k + 1), rest⟩)
  else .error (.tooDeep (i + levels))

namespace Parser

variable {deeper : Deeper} {i levels k : Nat} {rest : List Terminal} {close : Symbol}

section Closed

variable (hclose : close = .semicolon ∨ close = .rightParen)
include hclose

-- A primary expression and nothing else is a whole unary expression.
theorem power_of_primary {s : Input} {d : Draft}
    (h : primary deeper s = .ok (d, ⟨i, ⟨.symbol close, false⟩ :: rest⟩)) :
    power deeper s = .ok (d, ⟨i, ⟨.symbol close, false⟩ :: rest⟩) := by
  have hround : postfixRound deeper d ⟨i, ⟨.symbol close, false⟩ :: rest⟩ =
      .ok (.done d, ⟨i, ⟨.symbol close, false⟩ :: rest⟩) := by
    rcases hclose with rfl | rfl <;> rfl
  have hpostfixed : postfixed deeper s = .ok (d, ⟨i, ⟨.symbol close, false⟩ :: rest⟩) :=
    (bind_of_ok h).trans (Winds.done hround).iterate
  refine (bind_of_ok hpostfixed).trans ?_
  rcases hclose with rfl | rfl <;> rfl

theorem unary_number : unary deeper ⟨i, wrapped 0 (⟨.symbol close, false⟩ :: rest)⟩ =
    .ok (.leaf (.literal .integer) i, ⟨i + 1, ⟨.symbol close, false⟩ :: rest⟩) :=
  power_of_primary hclose rfl

omit hclose in
-- No cast begins here: behind the parenthesis there is another one, or a number.
theorem unary_wrapped :
    unary deeper ⟨i, wrapped (k + 1) rest⟩ = power deeper ⟨i, wrapped (k + 1) rest⟩ := by
  rw [wrapped_succ]
  cases k with
  | zero => rfl
  | succ k =>
      rw [wrapped_succ]
      rfl

omit hclose in
theorem primary_leftParen (more : List Terminal) :
    primary deeper ⟨i, ⟨.symbol .leftParen, false⟩ :: more⟩ = (do
      let inner ← deeper .expression
      let _ ← expectSymbol .rightParen
      return inner : Parser Draft) ⟨i + 1, more⟩ := rfl

theorem unary_of_deeper (h : ∀ k i behind,
      deeper .expression ⟨i, wrapped k (⟨.symbol .rightParen, false⟩ :: behind)⟩ =
        wrappedOutcome levels k i (⟨.symbol .rightParen, false⟩ :: behind)) (k i : Nat) :
    unary deeper ⟨i, wrapped k (⟨.symbol close, false⟩ :: rest)⟩ =
      wrappedOutcome (levels + 1) k i (⟨.symbol close, false⟩ :: rest) := by
  obtain - | k := k
  · exact unary_number hclose
  have hinner := h k (i + 1) (⟨.symbol close, false⟩ :: rest)
  rw [unary_wrapped, wrapped_succ]
  unfold wrappedOutcome at hinner ⊢
  by_cases hk : k < levels
  · rw [if_pos hk] at hinner
    rw [if_pos (Nat.succ_lt_succ hk)]
    have hprimary : primary deeper ⟨i, ⟨.symbol .leftParen, false⟩ ::
        wrapped k (⟨.symbol .rightParen, false⟩ :: ⟨.symbol close, false⟩ :: rest)⟩ =
          .ok (.leaf (.literal .integer) (i + 1 + k),
            ⟨i + 1 + (2 * k + 1) + 1, ⟨.symbol close, false⟩ :: rest⟩) :=
      (primary_leftParen _).trans ((bind_of_ok hinner).trans rfl)
    rw [power_of_primary hclose hprimary, show i + 1 + k = i + (k + 1) by omega,
      show i + 1 + (2 * k + 1) + 1 = i + (2 * (k + 1) + 1) by omega]
  · rw [if_neg hk] at hinner
    rw [if_neg (mt Nat.lt_of_succ_lt_succ hk)]
    have hprimary : primary deeper ⟨i, ⟨.symbol .leftParen, false⟩ ::
        wrapped k (⟨.symbol .rightParen, false⟩ :: ⟨.symbol close, false⟩ :: rest)⟩ =
          .error (.tooDeep (i + 1 + levels)) :=
      (primary_leftParen _).trans (bind_of_error hinner)
    rw [show i + 1 + levels = i + (levels + 1) by omega] at hprimary
    exact bind_of_error (bind_of_error hprimary)

-- On the way down from an assignment to a unary expression no level is entered.
theorem assignment_of_outcome {s : Input}
    (h : unary deeper s = wrappedOutcome levels k i (⟨.symbol close, false⟩ :: rest)) :
    assignment deeper s = wrappedOutcome levels k i (⟨.symbol close, false⟩ :: rest) ∧
      expression deeper s = wrappedOutcome levels k i (⟨.symbol close, false⟩ :: rest) := by
  unfold wrappedOutcome at h ⊢
  by_cases hk : k < levels
  · rw [if_pos hk] at h ⊢
    exact ⟨assignment_of_unary deeper hclose h, expression_of_unary deeper hclose h⟩
  · rw [if_neg hk] at h ⊢
    have hassignment : assignment deeper s = .error (.tooDeep (i + levels)) :=
      bind_of_error (bind_of_error (bind_of_error h))
    exact ⟨hassignment, bind_of_error (bind_of_error hassignment)⟩

end Closed

end Parser

open Grammar.Parser

-- Each pair of parentheses takes a level, whatever is left of them.
theorem parse_wrapped {close : Symbol} (hclose : close = .semicolon ∨ close = .rightParen)
    (levels k i : Nat) (rest : List Terminal) :
    parse levels .expression ⟨i, wrapped k (⟨.symbol close, false⟩ :: rest)⟩ =
      wrappedOutcome levels k i (⟨.symbol close, false⟩ :: rest) := by
  induction levels generalizing k i close rest with
  | zero => rfl
  | succ levels ih =>
      exact (assignment_of_outcome hclose (unary_of_deeper hclose (ih (.inr rfl)) k i)).2

theorem parse_assigned_wrapped (levels k i : Nat) (rest : List Terminal) :
    parse levels .assigned ⟨i, wrapped k (⟨.symbol .semicolon, false⟩ :: rest)⟩ =
      wrappedOutcome levels k i (⟨.symbol .semicolon, false⟩ :: rest) := by
  cases levels with
  | zero => rfl
  | succ levels =>
      exact (assignment_of_outcome (.inl rfl)
        (unary_of_deeper (.inl rfl) (parse_wrapped (.inr rfl) levels) k i)).1

-- A variable to which a wrapped number is assigned, up to a semicolon.
def wrappedStatement (k : Nat) : List Terminal :=
  ⟨.variableName, false⟩ :: ⟨.symbol .assign, false⟩ :: wrapped k [⟨.symbol .semicolon, false⟩]

-- Its draft at the beginning of a file.
def Draft.wrappedStatement (k : Nat) : Draft :=
  ⟨{ kind := .expressionStatement, first := 0, last := 2 + (2 * k + 1) },
    [Draft.joining .assignment 1 (Draft.leaf .variableName 0) (Draft.leaf (.literal .integer) (2 + k))]⟩

theorem assignment_wrapped (deeper : Deeper) (k : Nat) : assignment deeper ⟨0, wrappedStatement k⟩ =
    (do return Draft.joining .assignment 1 (Draft.leaf .variableName 0) (← deeper .assigned) :
      Parser Draft) ⟨2, wrapped k [⟨.symbol .semicolon, false⟩]⟩ := by
  rw [wrappedStatement]
  cases k with
  | zero => rfl
  | succ k =>
      rw [wrapped_succ]
      rfl

-- The statement takes a level, its expression another one, and what is assigned a third one. The
-- first two are entered in front of the variable.
theorem parse_wrappedStatement (levels k : Nat) : parse levels .statement ⟨0, wrappedStatement k⟩ =
    if k + 3 ≤ levels then .ok (some (.wrappedStatement k), ⟨2 + (2 * k + 1) + 1, []⟩)
    else .error (.tooDeep (if levels ≤ 1 then 0 else levels)) := by
  match levels with
  | 0 => rfl
  | 1 =>
      rw [if_neg (by omega)]
      rfl
  | levels + 2 =>
      have hassigned := parse_assigned_wrapped levels k 2 []
      unfold wrappedOutcome at hassigned
      by_cases hk : k < levels
      · rw [if_pos hk] at hassigned
        rw [if_pos (by omega)]
        have hassignment := (assignment_wrapped (parse levels) k).trans ((bind_of_ok hassigned).trans rfl)
        have hexpression := expression_of_assignment _ (.inl rfl) hassignment
        exact (bind_of_ok ((bind_of_ok hexpression).trans rfl)).trans rfl
      · rw [if_neg hk] at hassigned
        rw [if_neg (by omega), if_neg (by omega)]
        have hassignment := (assignment_wrapped (parse levels) k).trans (bind_of_error hassigned)
        rw [Nat.add_comm 2 levels] at hassignment
        have hexpression : expression (parse levels) ⟨0, wrappedStatement k⟩ =
            .error (.tooDeep (levels + 2)) := bind_of_error (bind_of_error hassignment)
        have hstatement : expressionStatement (parse (levels + 1)) ⟨0, wrappedStatement k⟩ =
            .error (.tooDeep (levels + 2)) := bind_of_error hexpression
        change (do return some (← expressionStatement (parse (levels + 1))) : Parser (Option Draft))
          ⟨0, wrappedStatement k⟩ = _
        exact bind_of_error hstatement

theorem parseFile_wrappedStatement (levels k : Nat) : parseFile levels (wrappedStatement k) =
    if k + 3 ≤ levels then .ok [.wrappedStatement k]
    else .error (.tooDeep (if levels ≤ 1 then 0 else levels)) := by
  have hstatement := parse_wrappedStatement levels k
  by_cases hk : k + 3 ≤ levels
  · rw [if_pos hk] at hstatement ⊢
    have htop : Parser.topStatement (parse levels) ⟨0, wrappedStatement k⟩ =
        .ok ([.wrappedStatement k], ⟨2 + (2 * k + 1) + 1, []⟩) := (bind_of_ok hstatement).trans rfl
    have hfile : Parser.file (parse levels) ⟨0, wrappedStatement k⟩ =
        .ok ([.wrappedStatement k], ⟨2 + (2 * k + 1) + 1, []⟩) :=
      (Winds.again ((bind_of_ok htop).trans rfl) (by simp [wrappedStatement]) (.done rfl)).iterate
    rw [parseFile, hfile]
  · rw [if_neg hk] at hstatement ⊢
    have htop : (do return (← parse levels .statement).toList : Parser (List Draft))
        ⟨0, wrappedStatement k⟩ = .error (.tooDeep (if levels ≤ 1 then 0 else levels)) :=
      bind_of_error hstatement
    have hround : (do return .again ([] ++ (← Parser.topStatement (parse levels))) :
        Parser (Round (List Draft) (List Draft))) ⟨0, wrappedStatement k⟩ =
          .error (.tooDeep (if levels ≤ 1 then 0 else levels)) :=
      bind_of_error (p := Parser.topStatement (parse levels)) htop
    have hfile : Parser.file (parse levels) ⟨0, wrappedStatement k⟩ =
        .error (.tooDeep (if levels ≤ 1 then 0 else levels)) := bind_of_error hround
    rw [parseFile, hfile]

end Census.Grammar
