namespace Census

-- Lines and columns count from one, and columns count characters.
structure Position where
  line : Nat
  column : Nat
deriving DecidableEq, Repr

namespace Position

-- The first character of a text.
def first : Position := ⟨1, 1⟩

instance : Inhabited Position := ⟨first⟩

-- Text order: by line, and within a line by column.
instance : Ord Position where
  compare p q := (compare p.line q.line).then (compare p.column q.column)

instance : LE Position where
  le p q := p.line < q.line ∨ p.line = q.line ∧ p.column ≤ q.column

instance : LT Position where
  lt p q := p.line < q.line ∨ p.line = q.line ∧ p.column < q.column

theorem le_def {p q : Position} :
    p ≤ q ↔ p.line < q.line ∨ p.line = q.line ∧ p.column ≤ q.column := Iff.rfl

theorem lt_def {p q : Position} :
    p < q ↔ p.line < q.line ∨ p.line = q.line ∧ p.column < q.column := Iff.rfl

instance (p q : Position) : Decidable (p ≤ q) := decidable_of_iff _ le_def.symm

instance (p q : Position) : Decidable (p < q) := decidable_of_iff _ lt_def.symm

instance : Min Position := ⟨fun p q => if p ≤ q then p else q⟩

instance : Max Position := ⟨fun p q => if p ≤ q then q else p⟩

instance : ToString Position := ⟨fun p => s!"{p.line}:{p.column}"⟩

-- The position that follows character `c` at `p`, where `next` is the character after `c`.
-- A line feed ends a line, and so does a carriage return that no line feed follows.
def after (p : Position) (c : Char) (next : Option Char) : Position :=
  if c = '\n' then ⟨p.line + 1, 1⟩
  else if c = '\r' ∧ next ≠ some '\n' then ⟨p.line + 1, 1⟩
  else ⟨p.line, p.column + 1⟩

-- The position of character `n` of a text whose first character stands at `p`.
def advance (p : Position) : Nat → List Char → Position
  | 0, _ => p
  | _ + 1, [] => p
  | n + 1, c :: rest => advance (p.after c rest.head?) n rest

end Position

-- Both ends of a span belong to it.
structure Span where
  start : Position
  stop : Position
deriving DecidableEq, Repr

namespace Span

instance : Inhabited Span := ⟨⟨.first, .first⟩⟩

-- The smallest span that holds both.
def through (s t : Span) : Span := ⟨min s.start t.start, max s.stop t.stop⟩

def contains (s : Span) (p : Position) : Bool := s.start ≤ p && p ≤ s.stop

instance : ToString Span := ⟨fun s => s!"{s.start}-{s.stop}"⟩

end Span

end Census
