import Census.Text.Search

namespace Census

-- A positive binary floating-point number of 32 bits, by its bits.
structure Binary32 where
  bits : UInt32
deriving DecidableEq, Repr

namespace Binary32

-- The integer nearest to a quotient; halfway between two it is the even one.
def roundDiv (num den : Nat) : Nat :=
  let q := num / den
  let r := num % den
  if 2 * r < den then q
  else if den < 2 * r then q + 1
  else if q % 2 = 0 then q
  else q + 1

-- The bits of infinity. All finite numbers have smaller ones.
def infinityBits : Nat := 0x7f800000

-- The bits of the number nearest to `num / den`. Its 24 digits are an integer times a power of
-- two with exponent at least -149; `scale` is that exponent plus 149. Carries into the next
-- power of two come out right, because the bits of positive numbers are in their order.
def nearestBits (num den : Nat) : Nat :=
  let size : Int := (num.log2 : Int) - den.log2
  -- the floor of the binary logarithm is `size` or one less
  let low (e : Int) : Bool :=
    if 0 ≤ e then num < den * Nat.pow 2 e.toNat else num * Nat.pow 2 (-e).toNat < den
  let top := if low size then size - 1 else size
  let scale := (top - 23 + 149).toNat
  let digits :=
    if 149 ≤ scale then roundDiv num (den * Nat.pow 2 (scale - 149))
    else roundDiv (num * Nat.pow 2 (149 - scale)) den
  scale * 0x800000 + digits

-- The positive finite number nearest to `digits * 10 ^ exponent`, if there is one. Below
-- `2 ^ -200` every number is nearest to zero, and above `10 ^ 200` none is finite; these bounds
-- keep the powers of ten small.
def ofDecimal? (digits : Nat) (exponent : Int) : Option Binary32 :=
  let size : Int := digits.log2
  if digits = 0 || exponent < 0 && size + 1 + 3 * exponent < -200 then none
  else if 200 < exponent then none
  else
    let bits :=
      if 0 ≤ exponent then nearestBits (digits * Nat.pow 10 exponent.toNat) 1
      else nearestBits digits (Nat.pow 10 (-exponent).toNat)
    if 0 < bits && bits < infinityBits then some ⟨bits.toUInt32⟩ else none

def digitsValue (cs : List Char) : Nat :=
  cs.foldl (fun n c => 10 * n + (c.toNat - '0'.toNat)) 0

-- The value of an exponent part, which may be missing.
def exponent? : List Char → Option Int
  | [] => some 0
  | c :: rest =>
      if c = 'e' || c = 'E' then
        let negative := rest.head? = some '-'
        let digits := if negative || rest.head? = some '+' then rest.tail else rest
        if digits.isEmpty || !digits.all Char.isDigit then none
        else
          let n : Int := digitsValue digits
          some (if negative then -n else n)
      else none

-- Reads a decimal number: digits with an optional point among or around them, an optional
-- sign in front and an optional exponent. Only numbers that come out positive and finite count.
def read? (s : String) : Option Binary32 :=
  let cs := s.toList
  let cs := if cs.head? = some '+' then cs.tail else cs
  let whole := cs.takeWhile Char.isDigit
  let rest := cs.drop whole.length
  let fraction := if rest.head? = some '.' then rest.tail.takeWhile Char.isDigit else []
  let rest := if rest.head? = some '.' then rest.drop (1 + fraction.length) else rest
  if whole.isEmpty && fraction.isEmpty then none
  else
    (exponent? rest).bind fun exponent =>
      ofDecimal? (digitsValue (whole ++ fraction)) (exponent - fraction.length)

end Binary32

end Census
