import Census.Script

namespace Census

-- The name of a variable, behind its dollar sign.
def VariableName : Type := { name : List Char //
  Scan.headIs Scan.isNameStart name = true ∧ name.all Scan.isNamePart = true }

-- One way to write a symbol. Inequality has two.
def Spelling : Type := { spelling : String × Symbol // spelling ∈ Symbol.spellings }

namespace Spelling

def text (s : Spelling) : String := s.1.1

def symbol (s : Spelling) : Symbol := s.1.2

end Spelling

-- The keywords that join whole assignments.
inductive Joint where
  | either | both

namespace Joint

def keyword : Joint → Keyword
  | .either => .kwOr
  | .both => .kwAnd

def level : Joint → Nat
  | .either => 0
  | .both => 1

end Joint

-- What the text of an expression is made of.
inductive Word where
  | named (name : VariableName)
  | symbol (spelling : Spelling)
  | joint (j : Joint)

namespace Word

def text : Word → String
  | .named name => "$" ++ String.ofList name.1
  | .symbol s => s.text
  | .joint j => j.keyword.word

def kind : Word → TokenKind
  | .named _ => .variableName
  | .symbol s => .symbol s.symbol
  | .joint j => .keyword j.keyword

def leftParen : Word := .symbol ⟨("(", .leftParen), by decide⟩

def rightParen : Word := .symbol ⟨(")", .rightParen), by decide⟩

def question : Word := .symbol ⟨("?", .question), by decide⟩

def colon : Word := .symbol ⟨(":", .colon), by decide⟩

def power : Word := .symbol ⟨("**", .power), by decide⟩

def semicolon : Word := .symbol ⟨(";", .semicolon), by decide⟩

end Word

-- A binary operator of the precedence table, in one of its spellings.
structure BinaryOperator where
  spelling : Spelling
  binding : Grammar.Binding
  binds : Grammar.Binding.ofSymbol? spelling.symbol = some binding

def AssignmentOperator : Type :=
  { s : Spelling // (TokenKind.symbol s.symbol).isAssignment = true }

-- An operator in front of its operand.
def SignOperator : Type :=
  { s : Spelling // s.symbol ∈ [Symbol.bang, .minus, .plus, .tilde, .atSign] }

-- Expressions of variables and operators, without regard to how they are written.
inductive Term where
  | named (name : VariableName)
  | joined (joint : Joint) (left right : Term)
  | assign (target : VariableName) (operator : AssignmentOperator) (value : Term)
  | choose (condition chosen otherwise : Term)
  | fallback (condition otherwise : Term)
  | binary (operator : BinaryOperator) (left right : Term)
  | sign (operator : SignOperator) (operand : Term)
  | power (base exponent : Term)

namespace BinaryOperator

def level (o : BinaryOperator) : Nat := 3 + o.binding.precedence

-- The levels that the operands need where they stand without parentheses.
def leftLevel (o : BinaryOperator) : Nat := if o.binding.rightward then o.level + 1 else o.level

def rightLevel (o : BinaryOperator) : Nat := if o.binding.rightward then o.level else o.level + 1

-- Every spelling with its precedence. Only the first one is rightward.
def table : List (String × Grammar.Binding) := [
  ("??", ⟨1, true⟩), ("||", ⟨2, false⟩), ("&&", ⟨3, false⟩), ("|", ⟨4, false⟩), ("^", ⟨5, false⟩),
  ("&", ⟨6, false⟩), ("==", ⟨7, false⟩), ("!=", ⟨7, false⟩), ("<>", ⟨7, false⟩), ("===", ⟨7, false⟩),
  ("!==", ⟨7, false⟩), ("<=>", ⟨7, false⟩), ("<", ⟨8, false⟩), ("<=", ⟨8, false⟩), (">", ⟨8, false⟩),
  (">=", ⟨8, false⟩), ("<<", ⟨9, false⟩), (">>", ⟨9, false⟩), ("+", ⟨10, false⟩), ("-", ⟨10, false⟩),
  (".", ⟨10, false⟩), ("*", ⟨11, false⟩), ("/", ⟨11, false⟩), ("%", ⟨11, false⟩)]

theorem exists_iff_mem_table {text : String} {binding : Grammar.Binding} :
    (∃ o : BinaryOperator, o.spelling.text = text ∧ o.binding = binding) ↔ (text, binding) ∈ table := by
  have hlisted : ∀ s ∈ Symbol.spellings, ∀ binding ∈ Grammar.Binding.ofSymbol? s.2,
      (s.1, binding) ∈ table := by decide
  have hspelled : ∀ row ∈ table, ∃ s ∈ Symbol.spellings, s.1 = row.1 ∧
      Grammar.Binding.ofSymbol? s.2 = some row.2 := by decide
  constructor
  · rintro ⟨o, rfl, rfl⟩
    exact hlisted o.spelling.1 o.spelling.2 o.binding o.binds
  · intro hrow
    obtain ⟨s, hs, htext, hbinds⟩ := hspelled _ hrow
    exact ⟨⟨⟨s, hs⟩, binding, hbinds⟩, htext, rfl⟩

end BinaryOperator

theorem AssignmentOperator.exists_iff {text : String} : (∃ o : AssignmentOperator, o.1.text = text) ↔
    text ∈ ["=", "+=", "-=", "*=", "/=", ".=", "%=", "??="] := by
  have hlisted : ∀ s ∈ Symbol.spellings, (TokenKind.symbol s.2).isAssignment = true →
      s.1 ∈ ["=", "+=", "-=", "*=", "/=", ".=", "%=", "??="] := by decide
  have hspelled : ∀ text ∈ ["=", "+=", "-=", "*=", "/=", ".=", "%=", "??="],
      ∃ s ∈ Symbol.spellings, s.1 = text ∧ (TokenKind.symbol s.2).isAssignment = true := by decide
  constructor
  · rintro ⟨o, rfl⟩
    exact hlisted o.1.1 o.1.2 o.2
  · intro h
    obtain ⟨s, hs, htext, hassignment⟩ := hspelled text h
    exact ⟨⟨⟨s, hs⟩, hassignment⟩, htext⟩

namespace Term

-- How tightly the outermost operator holds its operands. Between the conditional and the signs
-- lie the precedences 1 to 11 of the binary operators.
def level : Term → Nat
  | .joined j .. => j.level
  | .assign .. => 2
  | .choose .. | .fallback .. => 3
  | .binary o .. => o.level
  | .sign .. => 15
  | .power .. => 16
  | .named _ => 17

-- The words of an operand, in parentheses if its level is below what its place asks for.
def enclose (asked level : Nat) (words : List Word) : List Word :=
  if level < asked then .leftParen :: words ++ [.rightParen] else words

def words : Term → List Word
  | .named name => [.named name]
  | .joined j l r =>
      enclose j.level l.level l.words ++
        .joint j :: enclose (j.level + 1) r.level r.words
  | .assign target o value =>
      .named target :: .symbol o.1 :: enclose 2 value.level value.words
  | .choose c a b =>
      enclose 4 c.level c.words ++ .question :: enclose 2 a.level a.words ++
        .colon :: enclose 2 b.level b.words
  | .fallback c b => enclose 4 c.level c.words ++ .question :: .colon :: enclose 2 b.level b.words
  | .binary o l r =>
      enclose o.leftLevel l.level l.words ++
        .symbol o.spelling :: enclose o.rightLevel r.level r.words
  | .sign o e => .symbol o.1 :: enclose 15 e.level e.words
  | .power l r => enclose 17 l.level l.words ++ .power :: enclose 15 r.level r.words

-- The words of an expression at a place that asks for a level.
def wordsAt (asked : Nat) (e : Term) : List Word := enclose asked e.level e.words

-- A script with the expression as its one statement: one space between words, and `gap` spaces
-- in front of the semicolon.
def source (e : Term) (gap : Nat) : String :=
  "<?php " ++ " ".intercalate (e.words.map Word.text) ++
    String.ofList (List.replicate gap ' ') ++ ";"

-- The kinds and images of the nodes that show an expression.
def shape : Term → Tree (NodeKind × String)
  | .named name => ⟨(.variableName, (Word.named name).text), []⟩
  | .joined j l r => ⟨(.binary, j.keyword.word), [l.shape, r.shape]⟩
  | .assign target o value =>
      ⟨(.assignment, o.1.text), [⟨(.variableName, (Word.named target).text), []⟩, value.shape]⟩
  | .choose c a b => ⟨(.conditional, "?"), [c.shape, a.shape, b.shape]⟩
  | .fallback c b => ⟨(.conditional, "?:"), [c.shape, b.shape]⟩
  | .binary o l r => ⟨(.binary, o.spelling.text), [l.shape, r.shape]⟩
  | .sign o e => ⟨(.unary, o.1.text), [e.shape]⟩
  | .power l r => ⟨(.binary, "**"), [l.shape, r.shape]⟩

end Term

end Census
