import Census.Text.Position
import Census.Text.Quoted
import Census.Token.Kind

namespace Census

-- `start` and `stop` count bytes of UTF-8 from the beginning of the source, in 32 bits.
structure Token where
  kind : TokenKind
  text : String
  start : Nat
  stop : Nat
  span : Span
deriving DecidableEq, Repr

namespace Token

-- What is left of an offset in 32 bits.
def offset (n : Nat) : Nat := n % UInt32.size

theorem offset_of_lt {n : Nat} (h : n < UInt32.size) : offset n = n := Nat.mod_eq_of_lt h

end Token

-- What an open literal or comment still waits for.
inductive Closer where
  | singleQuote | doubleQuote | commentEnd | heredocLabel
deriving DecidableEq, Repr

namespace Closer

def describe : Closer → String
  | .singleQuote => "'"
  | .doubleQuote => "\""
  | .commentEnd => "*/"
  | .heredocLabel => "heredoc label"

end Closer

-- Both causes stand at the first character of the token that cannot be read.
inductive LexError where
  | unterminated (position : Position) (closer : Closer)
  | unexpectedCharacter (position : Position) (c : Char)
deriving DecidableEq, Repr

namespace LexError

def position : LexError → Position
  | .unterminated p _ => p
  | .unexpectedCharacter p _ => p

def message : LexError → String
  | .unterminated p closer =>
      s!"{p}: unterminated literal, expected closing {closer.describe}"
  | .unexpectedCharacter p c => s!"{p}: unexpected character {Text.quoted c}"

end LexError

end Census
