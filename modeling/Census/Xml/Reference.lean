import Census.Json.Word

namespace Census.Xml

def predefined : List (String × Char) := [
  ("lt", '<'), ("gt", '>'), ("amp", '&'), ("apos", '\''), ("quot", '"')]

-- A number in base 16 or 10, if all characters are digits of it.
def hexNumber? (cs : List Char) : Option Nat :=
  if cs.isEmpty then none
  else cs.foldlM (fun n c => (Json.Word.hexDigit? c).map (16 * n + ·)) 0

def number? (cs : List Char) : Option Nat :=
  if cs.isEmpty || !cs.all Char.isDigit then none else some (Json.Word.digitsValue cs)

-- The character with a number. There is none with number zero.
def numbered? (n : Nat) : Option Char :=
  if n ≠ 0 ∧ n.isValidChar then some (Char.ofNat n) else none

-- The character that a reference names: one of the predefined names, or a number.
def named? : List Char → Option Char
  | '#' :: 'x' :: digits => (hexNumber? digits).bind numbered?
  | '#' :: digits => (number? digits).bind numbered?
  | name => predefined.lookup (String.ofList name)

-- The character of a reference and the length of what follows its ampersand.
def reference? (cs : List Char) : Option (Char × Nat) :=
  let name := cs.takeWhile fun c => c ≠ ';' && c ≠ '&'
  if (cs.drop name.length).head? = some ';' then
    (named? name).map fun c => (c, name.length + 1)
  else none

-- The text with its references resolved. The first `skip` characters belong to one that has
-- been read.
def resolve? (skip : Nat) : List Char → Option (List Char)
  | [] => some []
  | c :: rest =>
      match skip with
      | skip + 1 => resolve? skip rest
      | 0 =>
          if c = '&' then
            match reference? rest with
            | none => none
            | some (d, n) => (resolve? n rest).map (d :: ·)
          else (resolve? 0 rest).map (c :: ·)

-- The written form of a character inside of text.
def escapeChar (c : Char) : List Char :=
  if c = '&' then "&amp;".toList
  else if c = '<' then "&lt;".toList
  else if c = '>' then "&gt;".toList
  else [c]

def escape (cs : List Char) : List Char := cs.flatMap escapeChar

end Census.Xml
