import Census.Grammar.File
import Census.Proofs.Grammar.Rounds

namespace Census.Grammar

-- The draft that `n` steps behind `base` make of it, the first of them at token `i`.
def Draft.stepped (base : Draft) (i : Nat) : Nat → Draft
  | 0 => base
  | n + 1 =>
      stepped ⟨{ kind := .postfixOperation, first := base.first, last := i
                 image := .tokens i i }, [base]⟩ (i + 1) n

theorem Draft.height_stepped (base : Draft) (i n : Nat) :
    (base.stepped i n).height = base.height + n := by
  induction n generalizing base i with
  | zero => rfl
  | succ n ih =>
      rw [stepped, ih, Tree.height, Tree.heightAll, Tree.heightAll, Nat.max_eq_left (Nat.zero_le _)]
      omega

-- A variable that is increased `n` times, up to a semicolon.
def stepTerminals (n : Nat) (rest : List Terminal) : List Terminal :=
  ⟨.variableName, false⟩ ::
    (List.replicate n ⟨.symbol .increment, false⟩ ++ ⟨.symbol .semicolon, false⟩ :: rest)

-- The draft of such a statement at the beginning of a file.
def Draft.stepStatement (n : Nat) : Draft :=
  let value := (Draft.leaf .variableName 0).stepped 1 n
  ⟨{ kind := .expressionStatement, first := value.first, last := 1 + n }, [value]⟩

namespace Parser

variable (deeper : Deeper) {s : Input} {d : Draft} {i : Nat} {cast : Bool} {rest : List Terminal}

section Closed

variable {close : Symbol} (hclose : close = .semicolon ∨ close = .rightParen)
include hclose

-- In front of a semicolon or a closing parenthesis, a unary expression is a whole expression.
theorem assignment_of_unary (h : unary deeper s = .ok (d, ⟨i, ⟨.symbol close, cast⟩ :: rest⟩)) :
    assignment deeper s = .ok (d, ⟨i, ⟨.symbol close, cast⟩ :: rest⟩) := by
  have hround : operandRound deeper 0 d ⟨i, ⟨.symbol close, cast⟩ :: rest⟩ =
      .ok (.done d, ⟨i, ⟨.symbol close, cast⟩ :: rest⟩) := by
    rcases hclose with rfl | rfl <;> rfl
  have hoperands : operands deeper 0 s = .ok (d, ⟨i, ⟨.symbol close, cast⟩ :: rest⟩) :=
    (bind_of_ok h).trans (Winds.done hround).iterate
  have hconditional : conditional deeper s = .ok (d, ⟨i, ⟨.symbol close, cast⟩ :: rest⟩) := by
    refine (bind_of_ok hoperands).trans ?_
    rcases hclose with rfl | rfl <;> rfl
  refine (bind_of_ok hconditional).trans ?_
  rcases hclose with rfl | rfl <;> rfl

theorem expression_of_assignment
    (h : assignment deeper s = .ok (d, ⟨i, ⟨.symbol close, cast⟩ :: rest⟩)) :
    expression deeper s = .ok (d, ⟨i, ⟨.symbol close, cast⟩ :: rest⟩) := by
  have hround (operator : Keyword) (operand : Parser Draft) :
      joinedRound operator operand d ⟨i, ⟨.symbol close, cast⟩ :: rest⟩ =
        .ok (.done d, ⟨i, ⟨.symbol close, cast⟩ :: rest⟩) := by
    rcases hclose with rfl | rfl <;> rfl
  have hjoined : joined .kwAnd (assignment deeper) s =
      .ok (d, ⟨i, ⟨.symbol close, cast⟩ :: rest⟩) :=
    (bind_of_ok h).trans (Winds.done (hround _ _)).iterate
  exact (bind_of_ok hjoined).trans (Winds.done (hround _ _)).iterate

theorem expression_of_unary (h : unary deeper s = .ok (d, ⟨i, ⟨.symbol close, cast⟩ :: rest⟩)) :
    expression deeper s = .ok (d, ⟨i, ⟨.symbol close, cast⟩ :: rest⟩) :=
  expression_of_assignment deeper hclose (assignment_of_unary deeper hclose h)

end Closed

-- Every step is one round of the loop behind a primary expression.
theorem winds_steps (n : Nat) (base : Draft) :
    Winds (postfixRound deeper) base
      ⟨i, List.replicate n ⟨.symbol .increment, false⟩ ++ ⟨.symbol .semicolon, false⟩ :: rest⟩
      (base.stepped i n) ⟨i + n, ⟨.symbol .semicolon, false⟩ :: rest⟩ := by
  induction n generalizing base i with
  | zero => exact .done rfl
  | succ n ih =>
      rw [List.replicate_succ, List.cons_append, Draft.stepped, ← Nat.add_assoc, Nat.add_right_comm]
      exact .again rfl (Nat.lt_succ_self _) (ih _)

theorem expression_steps (n : Nat) : expression deeper ⟨0, stepTerminals n rest⟩ =
    .ok ((Draft.leaf .variableName 0).stepped 1 n,
      ⟨1 + n, ⟨.symbol .semicolon, false⟩ :: rest⟩) := by
  have hpostfixed : postfixed deeper ⟨0, stepTerminals n rest⟩ =
      .ok ((Draft.leaf .variableName 0).stepped 1 n, ⟨1 + n, ⟨.symbol .semicolon, false⟩ :: rest⟩) :=
    (bind_of_ok rfl).trans (winds_steps deeper n _).iterate
  exact expression_of_unary deeper (.inl rfl) ((bind_of_ok hpostfixed).trans rfl)

-- The steps enter no level but those of the statement and of its expression.
theorem statement_steps (levels n : Nat) : Grammar.parse (levels + 2) .statement
    ⟨0, stepTerminals n rest⟩ = .ok (some (.stepStatement n), ⟨1 + n + 1, rest⟩) := by
  have hstatement : expressionStatement (Grammar.parse (levels + 1)) ⟨0, stepTerminals n rest⟩ =
      .ok (.stepStatement n, ⟨1 + n + 1, rest⟩) :=
    (bind_of_ok (expression_steps (Grammar.parse levels) n)).trans rfl
  exact (bind_of_ok hstatement).trans rfl

end Parser

theorem parseFile_steps (levels n : Nat) :
    parseFile (levels + 2) (stepTerminals n []) = .ok [.stepStatement n] := by
  have htop : Parser.topStatement (parse (levels + 2)) ⟨0, stepTerminals n []⟩ =
      .ok ([.stepStatement n], ⟨1 + n + 1, []⟩) :=
    (Parser.bind_of_ok (Parser.statement_steps levels n)).trans rfl
  have hfile : Parser.file (parse (levels + 2)) ⟨0, stepTerminals n []⟩ =
      .ok ([.stepStatement n], ⟨1 + n + 1, []⟩) :=
    (Parser.Winds.again ((Parser.bind_of_ok htop).trans rfl) (by simp [stepTerminals])
      (.done rfl)).iterate
  rw [parseFile, hfile]

end Census.Grammar
