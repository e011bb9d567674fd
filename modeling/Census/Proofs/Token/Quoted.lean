import Census.Proofs.Text.Utf8
import Census.Token.Scan

namespace Census

open Text

namespace Scan

-- The characters that open a quoted literal.
def isQuote (c : Char) : Bool := c = '\'' || c = '"'

theorem eq_of_isQuote {c : Char} (h : isQuote c = true) : c = '\'' ∨ c = '"' := by
  simpa [isQuote] using h

-- The number of characters through the first `quote`, where a backslash and the character
-- behind it count as a pair that ends nothing.
def quotedLength (quote : Char) : List Char → Option Nat
  | [] => none
  | c :: rest =>
      if c = '\\' then
        match rest with
        | [] => none
        | _ :: rest => (quotedLength quote rest).map (· + 2)
      else if c = quote then some 1
      else (quotedLength quote rest).map (· + 1)

variable {quote : Char} {n : Nat} {cs : List Char}

theorem quotedLength_pair (quote c : Char) (cs : List Char) :
    quotedLength quote ('\\' :: c :: cs) = (quotedLength quote cs).map (· + 2) := rfl

theorem quotedLength_quote (hquote : quote ≠ '\\') (cs : List Char) :
    quotedLength quote (quote :: cs) = some 1 := by
  rw [quotedLength.eq_def]
  simp only [if_neg hquote, if_true]

theorem quotedLength_other {c : Char} (hc : c ≠ '\\') (hquote : c ≠ quote) (cs : List Char) :
    quotedLength quote (c :: cs) = (quotedLength quote cs).map (· + 1) := by
  rw [quotedLength.eq_def]
  simp only [if_neg hc, if_neg hquote]

theorem le_length_of_quotedLength (h : quotedLength quote cs = some n) : n ≤ cs.length := by
  induction cs using quotedLength.induct quote generalizing n with
  | case1 | case2 => cases h
  | case3 c rest ih =>
      rw [quotedLength_pair] at h
      obtain ⟨m, hm, rfl⟩ := Option.map_eq_some_iff.1 h
      exact Nat.add_le_add_right (ih hm) 2
  | case4 rest hne =>
      rw [quotedLength_quote hne] at h
      cases h
      exact Nat.le_add_left 1 rest.length
  | case5 c rest hc hne ih =>
      rw [quotedLength_other hc hne] at h
      obtain ⟨m, hm, rfl⟩ := Option.map_eq_some_iff.1 h
      exact Nat.add_le_add_right (ih hm) 1

section Bytes

variable {delimiter : UInt8} {bs more : List UInt8}

-- Bytes beyond ASCII are passed over one by one.
theorem quotedEnd_beyond (hdelimiter : delimiter.toNat < 128) (hbs : ∀ b ∈ bs, 128 ≤ b.toNat)
    (passed : Nat) : quotedEnd delimiter passed (bs ++ more) = quotedEnd delimiter (passed + bs.length) more := by
  induction bs generalizing passed with
  | nil => rfl
  | cons b bs ih =>
      obtain ⟨hb, hothers⟩ := List.forall_mem_cons.1 hbs
      have hbackslash : b ≠ '\\'.toUInt8 := by
        rintro rfl
        exact absurd hb (by decide)
      have hdelimiter' : b ≠ delimiter := by
        rintro rfl
        omega
      rw [List.cons_append, quotedEnd.eq_def]
      simp only [if_neg hbackslash, if_neg hdelimiter']
      rw [ih hothers, List.length_cons, Nat.add_assoc, Nat.add_comm 1]

-- The byte behind a backslash is passed over with it. If a character goes on behind that byte,
-- the rest of it is beyond ASCII and ends nothing.
theorem quotedEnd_pair (hdelimiter : delimiter.toNat < 128) (passed : Nat) (c : Char) :
    quotedEnd delimiter passed (Utf8.bytes ['\\', c] ++ more) =
      quotedEnd delimiter (passed + utf8Size ['\\', c]) more := by
  obtain ⟨b, bs, hc, hlength, hbeyond⟩ := Utf8.exists_encodeChar c
  have hbytes : Utf8.bytes ['\\', c] ++ more = '\\'.toUInt8 :: b :: (bs ++ more) := by
    simp only [Utf8.bytes, List.flatMap_cons, List.flatMap_nil, hc, List.append_nil]
    rfl
  have hsize : utf8Size ['\\', c] = 2 + bs.length := by
    simp only [utf8Size, ← hlength]
    have hone : '\\'.utf8Size = 1 := rfl
    omega
  rw [hbytes, quotedEnd, if_pos rfl, quotedEnd_beyond hdelimiter hbeyond, hsize, Nat.add_assoc]

theorem quotedEnd_other {c : Char} (hquote : quote.val.toNat < 128) (hc : c ≠ '\\') (hne : c ≠ quote)
    (passed : Nat) : quotedEnd quote.toUInt8 passed (Utf8.bytes [c] ++ more) =
      quotedEnd quote.toUInt8 (passed + c.utf8Size) more := by
  have hbytes : Utf8.bytes [c] = String.utf8EncodeChar c := List.append_nil _
  rw [hbytes, ← String.length_utf8EncodeChar]
  rcases Utf8.encodeChar_cases c with ⟨hascii, hone⟩ | ⟨-, hbeyond⟩
  · -- characters of ASCII are told apart by their bytes
    have differ {d : Char} (hd : d.val.toNat < 128) (hcd : c ≠ d) : c.toUInt8 ≠ d.toUInt8 := by
      intro heq
      have hnat := congrArg UInt8.toNat heq
      simp only [Char.toUInt8, UInt32.toNat_toUInt8] at hnat
      exact hcd (Char.ext (UInt32.toNat_inj.1 (by omega)))
    rw [hone, List.singleton_append, quotedEnd.eq_def]
    simp only [if_neg (differ (by decide) hc), if_neg (differ hquote hne), List.length_singleton]
  · refine quotedEnd_beyond ?_ hbeyond passed
    rw [Char.toUInt8, UInt32.toNat_toUInt8]
    omega

end Bytes

-- The scan of the bytes ends where the reading of the characters does: behind a whole character.
theorem quotedEnd_bytes (hquote : isQuote quote = true) (cs : List Char) (passed : Nat) :
    quotedEnd quote.toUInt8 passed (Utf8.bytes cs) =
      (quotedLength quote cs).map fun n => passed + utf8Size (cs.take n) := by
  have hascii : quote.val.toNat < 128 ∧ quote.toUInt8.toNat < 128 ∧ quote.utf8Size = 1 := by
    rcases eq_of_isQuote hquote with rfl | rfl <;> decide
  obtain ⟨hval, hbyte, hsize⟩ := hascii
  have split (ds rest : List Char) : Utf8.bytes (ds ++ rest) = Utf8.bytes ds ++ Utf8.bytes rest :=
    List.flatMap_append
  induction cs using quotedLength.induct quote generalizing passed with
  | case1 => rfl
  | case2 => rfl
  | case3 c rest ih =>
      rw [quotedLength_pair, show '\\' :: c :: rest = ['\\', c] ++ rest from rfl, split,
        quotedEnd_pair hbyte, ih, Option.map_map]
      refine congrArg (Option.map · _) (funext fun n => ?_)
      simp only [Function.comp_apply, List.cons_append, List.nil_append, List.take_succ_cons, utf8Size]
      omega
  | case4 rest hne =>
      have hbytes : Utf8.bytes (quote :: rest) = quote.toUInt8 :: Utf8.bytes rest := by
        rcases eq_of_isQuote hquote with rfl | rfl <;> rfl
      have hbackslash : quote.toUInt8 ≠ '\\'.toUInt8 := by
        rcases eq_of_isQuote hquote with rfl | rfl <;> decide
      rw [quotedLength_quote hne, hbytes, quotedEnd.eq_def]
      simp only [if_neg hbackslash, if_true, Option.map_some, List.take_succ_cons, List.take_zero, utf8Size,
        hsize, Nat.add_zero]
  | case5 c rest hc hne ih =>
      rw [quotedLength_other hc hne, show c :: rest = [c] ++ rest from rfl, split,
        quotedEnd_other hval hc hne, ih, Option.map_map]
      refine congrArg (Option.map · _) (funext fun n => ?_)
      simp only [Function.comp_apply, List.cons_append, List.nil_append, List.take_succ_cons, utf8Size,
        Nat.add_assoc]

theorem quotedString_eq (hquote : isQuote quote = true) (closer : Closer) (cs : List Char) :
    quotedString quote closer cs =
      (quotedLength quote cs.tail).elim (.unterminated closer) fun n => .token .string (n + 1) := by
  rw [quotedString, quotedEnd_bytes hquote]
  cases h : quotedLength quote cs.tail with
  | none => rfl
  | some n =>
      simp only [Option.map_some, Option.elim_some, Nat.zero_add, takeBytes_utf8Size, List.length_take,
        Nat.min_eq_left (le_length_of_quotedLength h)]

end Scan

end Census
