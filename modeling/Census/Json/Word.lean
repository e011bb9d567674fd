import Census.Text.Quoted
import Census.Text.Search

namespace Census.Json

-- The words of a JSON text.
inductive Word where
  | openObject | closeObject | openArray | closeArray | comma | colon
  | null
  | bool (b : Bool)
  | integer (n : Int)
  | decimal (text : String)
  | string (s : String)
deriving DecidableEq, Repr

namespace Word

-- A character inside of a string. Quotes, backslashes and controls are escaped.
def escapeChar (c : Char) : List Char :=
  if c = '"' then ['\\', '"']
  else if c = '\\' then ['\\', '\\']
  else if c = '\x08' then ['\\', 'b']
  else if c = '\t' then ['\\', 't']
  else if c = '\n' then ['\\', 'n']
  else if c = '\x0c' then ['\\', 'f']
  else if c = '\r' then ['\\', 'r']
  else if c.toNat < 0x20 then
    ['\\', 'u', '0', '0', Nat.digitChar (c.toNat / 16), Nat.digitChar (c.toNat % 16)]
  else [c]

def escape (cs : List Char) : List Char := cs.flatMap escapeChar

def text : Word → List Char
  | .openObject => ['\x7b']
  | .closeObject => ['\x7d']
  | .openArray => ['[']
  | .closeArray => [']']
  | .comma => [',']
  | .colon => [':']
  | .null => "null".toList
  | .bool true => "true".toList
  | .bool false => "false".toList
  | .integer n => (toString n).toList
  | .decimal text => text.toList
  | .string s => '"' :: escape s.toList ++ ['"']

def isSpace (c : Char) : Bool := c = ' ' || c = '\t' || c = '\n' || c = '\r'

def hexDigit? (c : Char) : Option Nat :=
  if c.isDigit then some (c.toNat - '0'.toNat)
  else if 'a' ≤ c && c ≤ 'f' then some (c.toNat - 'a'.toNat + 10)
  else if 'A' ≤ c && c ≤ 'F' then some (c.toNat - 'A'.toNat + 10)
  else none

-- A number of four hexadecimal digits.
def hex4? (cs : List Char) : Option Nat :=
  match cs.take 4 with
  | [a, b, c, d] => do
      return (((← hexDigit? a) * 16 + (← hexDigit? b)) * 16 + (← hexDigit? c)) * 16 +
        (← hexDigit? d)
  | _ => none

-- The character of a numbered escape and the length of what follows its `u`. A character
-- above the basic plane takes two numbers; half of such a pair is no character.
def numbered? (cs : List Char) : Option (Char × Nat) := do
  let high ← hex4? cs
  if 0xd800 ≤ high && high < 0xdc00 then
    if (cs.drop 4).take 2 = ['\\', 'u'] then
      let low ← hex4? (cs.drop 6)
      if 0xdc00 ≤ low && low < 0xe000 then
        return (Char.ofNat (0x10000 + (high - 0xd800) * 0x400 + (low - 0xdc00)), 10)
      else none
    else none
  else if 0xdc00 ≤ high && high < 0xe000 then none
  else return (Char.ofNat high, 4)

-- The character that an escape stands for and the length of what follows its backslash.
def escaped? : List Char → Option (Char × Nat)
  | [] => none
  | c :: rest =>
      if c = '"' || c = '\\' || c = '/' then some (c, 1)
      else if c = 'b' then some ('\x08', 1)
      else if c = 't' then some ('\t', 1)
      else if c = 'n' then some ('\n', 1)
      else if c = 'f' then some ('\x0c', 1)
      else if c = 'r' then some ('\r', 1)
      else if c = 'u' then (numbered? rest).map fun (c, n) => (c, n + 1)
      else none

-- The characters up to a closing quote, and the length of the text through that quote. The
-- first `skip` characters have been read as part of an escape.
def stringBody? (skip : Nat) : List Char → Option (List Char × Nat)
  | [] => none
  | c :: rest =>
      match skip with
      | skip + 1 => (stringBody? skip rest).map fun (cs, n) => (cs, n + 1)
      | 0 =>
          if c = '"' then some ([], 1)
          else if c = '\\' then
            match escaped? rest with
            | none => none
            | some (d, skip) => (stringBody? skip rest).map fun (cs, n) => (d :: cs, n + 1)
          else if c.toNat < 0x20 then none
          else (stringBody? 0 rest).map fun (cs, n) => (c :: cs, n + 1)

-- The length of an integer without leading zeros.
def wholeLength (cs : List Char) : Nat :=
  if cs.head? = some '0' then 1 else Text.run Char.isDigit cs

def fractionLength (cs : List Char) : Nat :=
  let digits := Text.run Char.isDigit cs.tail
  if cs.head? = some '.' && digits != 0 then 1 + digits else 0

def exponentLength (cs : List Char) : Nat :=
  let marked := cs.head?.any fun c => c = 'e' || c = 'E'
  let sign := if cs.tail.head?.any fun c => c = '+' || c = '-' then 1 else 0
  let digits := Text.run Char.isDigit (cs.drop (1 + sign))
  if marked && digits != 0 then 1 + sign + digits else 0

def digitsValue (cs : List Char) : Nat :=
  cs.foldl (fun n c => 10 * n + (c.toNat - '0'.toNat)) 0

-- Integers of 64 bits, with or without a sign, are kept as they are.
def isShort (n : Int) : Bool := -0x8000000000000000 ≤ n && n < 0x10000000000000000

-- A number and its length. Zero with a sign and integers that are too long count as decimals,
-- which always have a point or an exponent.
def number? (cs : List Char) : Option (Word × Nat) :=
  let negative := cs.head? = some '-'
  let sign := if negative then 1 else 0
  let whole := wholeLength (cs.drop sign)
  if whole = 0 then none
  else
    let rest := cs.drop (sign + whole)
    let fraction := fractionLength rest
    let exponent := exponentLength (rest.drop fraction)
    let length := sign + whole + fraction + exponent
    let text := cs.take length
    if fraction = 0 && exponent = 0 then
      let size := digitsValue ((cs.drop sign).take whole)
      let n : Int := if negative then -(size : Int) else size
      if (negative && size = 0) || !isShort n then
        some (.decimal (String.ofList (text ++ ['.', '0'])), length)
      else some (.integer n, length)
    else some (.decimal (String.ofList text), length)

def literals : List (String × Word) := [
  ("\x7b", .openObject), ("\x7d", .closeObject), ("[", .openArray), ("]", .closeArray), (",", .comma),
  (":", .colon), ("null", .null), ("true", .bool true), ("false", .bool false)]

-- The word at the beginning of a text, and its length.
def first? (cs : List Char) : Option (Word × Nat) :=
  match literals.find? fun l => l.1.toList.isPrefixOf cs with
  | some (text, word) => some (word, text.length)
  | none =>
      if cs.head? = some '"' then
        (stringBody? 0 cs.tail).map fun (cs, n) => (.string (String.ofList cs), n + 1)
      else number? cs

-- The words of a text, which space may separate. The first `skip` characters belong to a word
-- that has been read.
def all? (skip : Nat) : List Char → Option (List Word)
  | [] => some []
  | c :: rest =>
      match skip with
      | skip + 1 => all? skip rest
      | 0 =>
          if isSpace c then all? 0 rest
          else
            match first? (c :: rest) with
            | none => none
            | some (word, n) => (all? (n - 1) rest).map (word :: ·)

end Word

end Census.Json
