namespace Census.Text.Utf8

def isContinuation (b : UInt8) : Bool := 0x80 ≤ b && b ≤ 0xbf

-- Whether `b` may follow the first byte `a` of a sequence of three or four bytes. This leaves
-- out overlong forms, surrogates and what lies beyond the last code point.
def isSecond (a b : UInt8) : Bool :=
  if a = 0xe0 then 0xa0 ≤ b && b ≤ 0xbf
  else if a = 0xed then 0x80 ≤ b && b ≤ 0x9f
  else if a = 0xf0 then 0x90 ≤ b && b ≤ 0xbf
  else if a = 0xf4 then 0x80 ≤ b && b ≤ 0x8f
  else isContinuation b

-- The number of bytes in a sequence that begins with `a`, if any does.
def width? (a : UInt8) : Option Nat :=
  if a < 0x80 then some 1
  else if 0xc2 ≤ a && a ≤ 0xdf then some 2
  else if 0xe0 ≤ a && a ≤ 0xef then some 3
  else if 0xf0 ≤ a && a ≤ 0xf4 then some 4
  else none

-- The number of bytes behind `a` that fit into its sequence.
def fitting (a : UInt8) (width : Nat) (rest : List UInt8) : Nat :=
  match rest.take (width - 1) with
  | [] => 0
  | b :: more =>
      if width = 2 then (if isContinuation b then 1 else 0)
      else if isSecond a b then 1 + (more.takeWhile isContinuation).length
      else 0

def value (a : UInt8) (width : Nat) (rest : List UInt8) : Nat :=
  let lead := if width = 1 then a.toNat else a.toNat % Nat.pow 2 (7 - width)
  (rest.take (width - 1)).foldl (fun n b => n * 64 + b.toNat % 64) lead

-- The character at the beginning of a byte sequence, and how many bytes follow its first one.
-- Where none can be read, the bytes are those of the longest beginning of a character.
def first (a : UInt8) (rest : List UInt8) : Option Char × Nat :=
  match width? a with
  | none => (none, 0)
  | some width =>
      let fit := fitting a width rest
      if fit + 1 = width then (some (Char.ofNat (value a width rest)), fit) else (none, fit)

-- All characters of a byte sequence, and nothing for each part that is no character. The
-- first `skip` bytes have been read.
def characters (skip : Nat) : List UInt8 → List (Option Char)
  | [] => []
  | a :: rest =>
      match skip with
      | skip + 1 => characters skip rest
      | 0 =>
          let (c, n) := first a rest
          c :: characters n rest

-- The text of a byte sequence; what is no character becomes a replacement character.
def decodeLossy (bytes : List UInt8) : String :=
  String.ofList ((characters 0 bytes).map fun c => c.getD '\ufffd')

-- The text of a byte sequence that consists of characters.
def decode? (bytes : List UInt8) : Option String :=
  ((characters 0 bytes).mapM id).map String.ofList

def encode (s : String) : List UInt8 := s.toUTF8.toList

-- The bytes of some characters.
def bytes (cs : List Char) : List UInt8 := cs.flatMap String.utf8EncodeChar

end Census.Text.Utf8
