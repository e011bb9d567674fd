import Census.Grammar.File

namespace Census.Grammar.Parser

-- Two parsers that are put together in the same way, the first with `deeper` where the second
-- has `deeper'`. Every production of the grammar is parallel to itself, so a relation that the
-- primitive parsers, sequences and loops keep is kept by the whole grammar.
inductive Parallel (deeper deeper' : Deeper) : {α : Type} → Parser α → Parser α → Prop
  | pure {α : Type} (a : α) : Parallel deeper deeper' (Pure.pure a : Parser α) (Pure.pure a)
  | bind {α β : Type} {p p' : Parser α} {f f' : α → Parser β} :
      Parallel deeper deeper' p p' → (∀ a, Parallel deeper deeper' (f a) (f' a)) →
      Parallel deeper deeper' (p >>= f) (p' >>= f')
  | deeper (goal : Goal) : Parallel deeper deeper' (deeper goal) (deeper' goal)
  | next : Parallel deeper deeper' next next
  | here : Parallel deeper deeper' here here
  | ahead (n : Nat) : Parallel deeper deeper' (ahead n) (ahead n)
  | castAhead (n : Nat) : Parallel deeper deeper' (castAhead n) (castAhead n)
  | unexpected {α : Type} (expected : Expected) :
      Parallel deeper deeper' (unexpected expected : Parser α) (unexpected expected)
  | atEnd {α : Type} : Parallel deeper deeper' (fail .atEnd : Parser α) (fail .atEnd)
  | iterate {α β : Type} {step step' : α → Parser (Round α β)} :
      (∀ a, Parallel deeper deeper' (step a) (step' a)) → ∀ a,
      Parallel deeper deeper' (iterate step a) (iterate step' a)

namespace Parallel

variable {d d' : Deeper} {α : Type}

theorem ite {c : Prop} [Decidable c] {p p' q q' : Parser α} (hp : Parallel d d' p p')
    (hq : Parallel d d' q q') : Parallel d d' (if c then p else q) (if c then p' else q') := by
  split
  · exact hp
  · exact hq

theorem accept (kind : TokenKind) : Parallel d d' (accept kind) (accept kind) :=
  (ahead 0).bind fun _ => .ite (next.bind fun _ => .pure _) (.pure _)

theorem expect (kind : TokenKind) (expected : Expected) :
    Parallel d d' (expect kind expected) (expect kind expected) :=
  (ahead 0).bind fun _ => .ite next (unexpected _)

theorem terminator : Parallel d d' terminator terminator := by
  refine (ahead 0).bind fun kind => ?_
  split
  · exact next
  · exact next
  · exact unexpected _

theorem through {item item' : Parser (List α)} (close : Symbol) (hi : Parallel d d' item item') :
    Parallel d d' (through close item) (through close item') := by
  refine iterate (fun items => (accept _).bind fun last => ?_) _
  cases last with
  | some last => exact .pure _
  | none => exact here.bind fun _ => hi.bind fun _ => .pure _

end Parallel

end Census.Grammar.Parser
