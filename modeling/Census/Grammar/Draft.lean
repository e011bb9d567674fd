import Census.Token.Kind
import Census.Tree.Node

namespace Census.Grammar

-- What the grammar sees of a token: its kind, and whether its text names a type to which a
-- value can be cast. Texts, positions and documentation play no part in parsing.
structure Terminal where
  kind : TokenKind
  namesCast : Bool
deriving DecidableEq, Repr

-- The source of a node's image: nothing, the joined texts of some tokens, or the lower-cased text
-- of one token.
inductive Image where
  | none
  | pieces (tokens : List Nat)
  | lowered (token : Nat)
deriving DecidableEq, Repr

-- The joined texts of the tokens from one number to another.
def Image.tokens (first last : Nat) : Image := .pieces (List.range' first (last + 1 - first))

-- A node in terms of token numbers. It reaches from token `first` to token `last`, and its
-- documentation is that of token `doc`.
structure Outline where
  kind : NodeKind
  first : Nat
  last : Nat
  image : Image := .none
  modifiers : Modifiers := .empty
  doc : Option Nat := none
deriving DecidableEq, Repr

-- A tree before its texts and positions are looked up.
abbrev Draft := Tree Outline

namespace Draft

def first (draft : Draft) : Nat := draft.label.first

def last (draft : Draft) : Nat := draft.label.last

-- A node that is exactly one token and shows its text.
def leaf (kind : NodeKind) (token : Nat) : Draft :=
  ⟨{ kind, first := token, last := token, image := .tokens token token }, []⟩

-- An operator between two operands.
def joining (kind : NodeKind) (operator : Nat) (left right : Draft) : Draft :=
  ⟨{ kind, first := left.first, last := right.last, image := .tokens operator operator },
    [left, right]⟩

end Draft

-- What the grammar asks for at a place where something else stands.
inductive Expected where
  | symbol (s : Symbol)
  | keyword (k : Keyword)
  | variableName | identifier | expression | classMember | caseOrDefault | catchOrFinally
deriving DecidableEq, Repr

namespace Expected

def describe : Expected → String
  | .symbol s => s!"'{s.text}'"
  | .keyword k => s!"'{k.word}'"
  | .variableName => "variable"
  | .identifier => "identifier"
  | .expression => "expression"
  | .classMember => "class member"
  | .caseOrDefault => "'case' or 'default'"
  | .catchOrFinally => "'catch' or 'finally'"

end Expected

-- Why parsing stops, in terms of token numbers: the tokens ran out, a token does not fit, or
-- the next token would be nested too deeply.
inductive Failure where
  | atEnd
  | unexpected (token : Nat) (expected : Expected)
  | tooDeep (token : Nat)
deriving DecidableEq, Repr

end Census.Grammar
