import Census.Proofs.Text.Split
import Census.Text.Utf8
import Mathlib.Tactic.SplitIfs

namespace Census.Text.Utf8

-- An ASCII character is one byte. All bytes of every other character lie beyond ASCII.
theorem encodeChar_cases (c : Char) :
    c.val.toNat < 128 ∧ String.utf8EncodeChar c = [c.toUInt8] ∨
      128 ≤ c.val.toNat ∧ ∀ b ∈ String.utf8EncodeChar c, 128 ≤ b.toNat := by
  have hmax : c.val.toNat < 0x110000 := by
    have hvalid : c.val.toNat.isValidChar := c.valid
    simp only [Nat.isValidChar] at hvalid
    omega
  by_cases hone : c.val.toNat ≤ 0x7f
  · refine .inl ⟨by omega, ?_⟩
    simp only [String.utf8EncodeChar, hone, if_true]
    rfl
  · refine .inr ⟨by omega, fun b hb => ?_⟩
    simp only [String.utf8EncodeChar, hone, if_false] at hb
    generalize c.val.toNat = n at hmax hone hb
    split at hb
    · simp only [List.mem_cons, List.not_mem_nil, or_false] at hb
      rcases hb with rfl | rfl <;> rw [UInt8.toNat_ofNat'] <;> omega
    split at hb
    · simp only [List.mem_cons, List.not_mem_nil, or_false] at hb
      rcases hb with rfl | rfl | rfl <;> rw [UInt8.toNat_ofNat'] <;> omega
    · simp only [List.mem_cons, List.not_mem_nil, or_false] at hb
      rcases hb with rfl | rfl | rfl | rfl <;> rw [UInt8.toNat_ofNat'] <;> omega

theorem encodeChar_of_ascii {c : Char} (hc : c.val.toNat < 128) :
    String.utf8EncodeChar c = [c.toUInt8] := by
  rcases encodeChar_cases c with ⟨-, hone⟩ | ⟨hbeyond, -⟩
  · exact hone
  · omega

-- The byte of an ASCII character stands in no other character.
theorem not_mem_encodeChar {c d : Char} (hc : c.val.toNat < 128) (hd : d ≠ c) :
    c.toUInt8 ∉ String.utf8EncodeChar d := by
  have hbyte : c.toUInt8.toNat = c.val.toNat := by
    rw [Char.toUInt8, UInt32.toNat_toUInt8]
    omega
  rcases encodeChar_cases d with ⟨hascii, hone⟩ | ⟨-, hbeyond⟩
  · rw [hone, List.mem_singleton]
    intro heq
    have hvalue : c.val.toNat = d.val.toNat := by
      rw [← hbyte, heq, Char.toUInt8, UInt32.toNat_toUInt8]
      omega
    exact hd (Char.ext (UInt32.toNat_inj.1 hvalue.symm))
  · intro hmem
    have := hbeyond _ hmem
    omega

-- Behind its first byte, no character has a byte of ASCII.
theorem exists_encodeChar (c : Char) : ∃ b bs, String.utf8EncodeChar c = b :: bs ∧
    bs.length + 1 = c.utf8Size ∧ ∀ x ∈ bs, 128 ≤ x.toNat := by
  obtain ⟨b, bs, hbs⟩ := List.exists_cons_of_ne_nil (String.utf8EncodeChar_ne_nil (c := c))
  refine ⟨b, bs, hbs, ?_, fun x hx => ?_⟩
  · rw [← String.length_utf8EncodeChar, hbs, List.length_cons]
  · rcases encodeChar_cases c with ⟨-, hone⟩ | ⟨-, hbeyond⟩
    · rw [hone] at hbs
      obtain ⟨-, rfl⟩ := List.cons.inj hbs
      cases hx
    · exact hbeyond x (hbs ▸ List.mem_cons_of_mem b hx)

-- The loop that lists bytes puts the rest of them behind those that are done.
theorem toList_loop (bytes : ByteArray) (i : Nat) (done : List UInt8) :
    ByteArray.toList.loop bytes i done = done.reverse ++ bytes.data.toList.drop i := by
  generalize hn : bytes.size - i = n
  induction n generalizing i done with
  | zero =>
      have hi : bytes.data.toList.length ≤ i := by
        rw [Array.length_toList]
        exact Nat.sub_eq_zero_iff_le.1 hn
      rw [ByteArray.toList.loop, if_neg (by omega), List.drop_eq_nil_of_le hi, List.append_nil]
  | succ n ih =>
      have hi : i < bytes.data.toList.length := by
        rw [Array.length_toList]
        exact Nat.lt_of_sub_eq_succ hn
      have hget : bytes.get! i = bytes.data.toList[i] := by
        rw [Array.getElem_toList]
        exact getElem!_pos bytes.data i (by simpa using hi)
      rw [ByteArray.toList.loop, if_pos (by omega), ih _ _ (by omega), List.drop_eq_getElem_cons hi, hget,
        List.reverse_cons, List.append_assoc, List.singleton_append]

theorem encode_eq (s : String) : encode s = bytes s.toList := by
  rw [encode, String.toUTF8_eq_toByteArray, ← String.utf8Encode_toList, ByteArray.toList, toList_loop,
    List.utf8Encode, List.toList_data_toByteArray]
  rfl

-- The byte sequences of single characters, with the number that their bits make up.
inductive Sequence : List UInt8 → Nat → Prop where
  | one {a : UInt8} {n : Nat} (ha : a.toNat < 0x80) (hn : n = a.toNat) : Sequence [a] n
  | two {a b : UInt8} {n : Nat} (ha : 0xc2 ≤ a.toNat ∧ a.toNat ≤ 0xdf) (hb : isContinuation b = true)
      (hn : n = a.toNat % 32 * 64 + b.toNat % 64) : Sequence [a, b] n
  | three {a b c : UInt8} {n : Nat} (ha : 0xe0 ≤ a.toNat ∧ a.toNat ≤ 0xef) (hb : isSecond a b = true)
      (hc : isContinuation c = true)
      (hn : n = (a.toNat % 16 * 64 + b.toNat % 64) * 64 + c.toNat % 64) : Sequence [a, b, c] n
  | four {a b c d : UInt8} {n : Nat} (ha : 0xf0 ≤ a.toNat ∧ a.toNat ≤ 0xf4) (hb : isSecond a b = true)
      (hc : isContinuation c = true) (hd : isContinuation d = true)
      (hn : n = ((a.toNat % 8 * 64 + b.toNat % 64) * 64 + c.toNat % 64) * 64 + d.toNat % 64) :
      Sequence [a, b, c, d] n

variable {a b : UInt8} {rest bs : List UInt8} {n : Nat}

theorem isContinuation_iff : isContinuation b = true ↔ 0x80 ≤ b.toNat ∧ b.toNat ≤ 0xbf := by
  simp [isContinuation, UInt8.le_iff_toNat_le]

-- What the second byte of three or four can be, by the first one.
theorem isSecond_iff : isSecond a b = true ↔ (0x80 ≤ b.toNat ∧ b.toNat ≤ 0xbf) ∧
    (a.toNat = 0xe0 → 0xa0 ≤ b.toNat) ∧ (a.toNat = 0xed → b.toNat ≤ 0x9f) ∧
    (a.toNat = 0xf0 → 0x90 ≤ b.toNat) ∧ (a.toNat = 0xf4 → b.toNat ≤ 0x8f) := by
  simp only [isSecond, isContinuation, ← UInt8.toNat_inj, UInt8.le_iff_toNat_le, UInt8.reduceToNat]
  generalize a.toNat = m, b.toNat = n
  split_ifs <;> simp only [Bool.and_eq_true, decide_eq_true_eq] <;> omega

theorem width?_eq (a : UInt8) : width? a =
    if a.toNat < 0x80 then some 1
    else if 0xc2 ≤ a.toNat ∧ a.toNat ≤ 0xdf then some 2
    else if 0xe0 ≤ a.toNat ∧ a.toNat ≤ 0xef then some 3
    else if 0xf0 ≤ a.toNat ∧ a.toNat ≤ 0xf4 then some 4
    else none := by
  simp only [width?, UInt8.lt_iff_toNat_lt, UInt8.le_iff_toNat_le, UInt8.reduceToNat, Bool.and_eq_true, decide_eq_true_eq]

theorem sequence_encodeChar (c : Char) : Sequence (String.utf8EncodeChar c) c.toNat := by
  have hvalid : c.toNat.isValidChar := c.valid
  simp only [Nat.isValidChar] at hvalid
  simp only [String.utf8EncodeChar, ← Char.toNat_val] at hvalid ⊢
  generalize c.val.toNat = n at hvalid
  split_ifs with hone htwo hthree
  · apply Sequence.one <;> simp only [UInt8.toNat_ofNat'] <;> omega
  · apply Sequence.two <;> simp only [isContinuation_iff, UInt8.toNat_ofNat'] <;> omega
  · apply Sequence.three <;> simp only [isContinuation_iff, isSecond_iff, UInt8.toNat_ofNat'] <;> omega
  · apply Sequence.four <;> simp only [isContinuation_iff, isSecond_iff, UInt8.toNat_ofNat'] <;> omega



-- Bytes are determined by their numbers.
theorem ofNat_eq_iff {m : Nat} (hm : m < 256) : UInt8.ofNat m = a ↔ m = a.toNat := by
  rw [← UInt8.toNat_inj, UInt8.toNat_ofNat', Nat.mod_eq_of_lt hm]

theorem Sequence.isValidChar (h : Sequence bs n) : n.isValidChar := by
  rw [Nat.isValidChar]
  cases h with
  | one ha hn => omega
  | two ha hb hn => omega
  | three ha hb hc hn =>
      rw [isSecond_iff] at hb
      omega
  | four ha hb hc hd hn =>
      rw [isSecond_iff] at hb
      omega

theorem encodeChar_of_sequence (h : Sequence bs n) : String.utf8EncodeChar (Char.ofNat n) = bs := by
  have hval : (Char.ofNat n).val.toNat = n := by
    rw [Char.ofNat, dif_pos h.isValidChar]
    rfl
  simp only [String.utf8EncodeChar, hval]
  cases h with
  | one ha hn =>
      rw [if_pos (by omega), hn, UInt8.ofNat_toNat]
  | two ha hb hn =>
      rw [isContinuation_iff] at hb
      rw [if_neg (by omega), if_pos (by omega)]
      congr <;> rw [ofNat_eq_iff (by omega)] <;> omega
  | three ha hb hc hn =>
      rw [isSecond_iff] at hb
      rw [isContinuation_iff] at hc
      rw [if_neg (by omega), if_neg (by omega), if_pos (by omega)]
      congr <;> rw [ofNat_eq_iff (by omega)] <;> omega
  | four ha hb hc hd hn =>
      rw [isSecond_iff] at hb
      rw [isContinuation_iff] at hc hd
      rw [if_neg (by omega), if_neg (by omega), if_neg (by omega)]
      congr <;> rw [ofNat_eq_iff (by omega)] <;> omega

theorem first_of_sequence (h : Sequence (a :: bs) n) (rest : List UInt8) :
    first a (bs ++ rest) = (some (Char.ofNat n), bs.length) := by
  rw [first, width?_eq]
  cases h with
  | one ha hn =>
      rw [if_pos ha, hn]
      simp [fitting, value]
  | two ha hb hn =>
      rw [if_neg (by omega), if_pos (by omega)]
      simp [fitting, value, hb, hn]
  | three ha hb hc hn =>
      rw [if_neg (by omega), if_neg (by omega), if_pos (by omega)]
      simp [fitting, value, hb, hc, hn]
  | four ha hb hc hd hn =>
      rw [if_neg (by omega), if_neg (by omega), if_neg (by omega), if_pos (by omega)]
      simp [fitting, value, hb, hc, hd, hn]


-- The bytes that fit are those of a sequence, if there are enough of them.
theorem sequence_of_fitting_two (ha : 0xc2 ≤ a.toNat ∧ a.toNat ≤ 0xdf) (h : fitting a 2 rest = 1) :
    ∃ bs more, rest = bs ++ more ∧ bs.length = 1 ∧ Sequence (a :: bs) (value a 2 rest) := by
  rcases rest with - | ⟨b, more⟩
  · simp [fitting] at h
  · by_cases hb : isContinuation b = true
    · exact ⟨[b], more, rfl, rfl, .two ha hb (by simp [value])⟩
    · simp [fitting, hb] at h

theorem sequence_of_fitting_three (ha : 0xe0 ≤ a.toNat ∧ a.toNat ≤ 0xef) (h : fitting a 3 rest = 2) :
    ∃ bs more, rest = bs ++ more ∧ bs.length = 2 ∧ Sequence (a :: bs) (value a 3 rest) := by
  rcases rest with - | ⟨b, - | ⟨c, more⟩⟩
  · simp [fitting] at h
  · by_cases hb : isSecond a b = true <;> simp [fitting, hb] at h
  · by_cases hb : isSecond a b = true <;> by_cases hc : isContinuation c = true <;>
      simp [fitting, hb, hc] at h
    exact ⟨[b, c], more, rfl, rfl, .three ha hb hc (by simp [value])⟩

theorem sequence_of_fitting_four (ha : 0xf0 ≤ a.toNat ∧ a.toNat ≤ 0xf4) (h : fitting a 4 rest = 3) :
    ∃ bs more, rest = bs ++ more ∧ bs.length = 3 ∧ Sequence (a :: bs) (value a 4 rest) := by
  rcases rest with - | ⟨b, - | ⟨c, - | ⟨d, more⟩⟩⟩
  · simp [fitting] at h
  · by_cases hb : isSecond a b = true <;> simp [fitting, hb] at h
  · by_cases hb : isSecond a b = true <;> by_cases hc : isContinuation c = true <;>
      simp [fitting, hb, hc] at h
  · by_cases hb : isSecond a b = true <;> by_cases hc : isContinuation c = true <;>
      by_cases hd : isContinuation d = true <;> simp [fitting, hb, hc, hd] at h
    exact ⟨[b, c, d], more, rfl, rfl, .four ha hb hc hd (by simp [value])⟩

theorem sequence_of_fitting {width : Nat} (hwidth : width? a = some width)
    (h : fitting a width rest + 1 = width) : ∃ bs more, rest = bs ++ more ∧
      bs.length = fitting a width rest ∧ Sequence (a :: bs) (value a width rest) := by
  rw [width?_eq] at hwidth
  split_ifs at hwidth with hone htwo hthree hfour <;> obtain rfl := Option.some.inj hwidth
  · exact ⟨[], rest, rfl, (Nat.succ.inj h).symm, .one hone rfl⟩
  · rw [Nat.succ.inj h]
    exact sequence_of_fitting_two htwo (Nat.succ.inj h)
  · rw [Nat.succ.inj h]
    exact sequence_of_fitting_three hthree (Nat.succ.inj h)
  · rw [Nat.succ.inj h]
    exact sequence_of_fitting_four hfour (Nat.succ.inj h)

theorem sequence_of_first {c : Char} {k : Nat} (h : first a rest = (some c, k)) :
    ∃ bs more n, rest = bs ++ more ∧ bs.length = k ∧ Sequence (a :: bs) n ∧ c = Char.ofNat n := by
  rw [first] at h
  cases hwidth : width? a with
  | none =>
      rw [hwidth] at h
      cases h
  | some width =>
      rw [hwidth] at h
      dsimp only at h
      by_cases hfit : fitting a width rest + 1 = width
      · obtain ⟨bs, more, hrest, hlength, hsequence⟩ := sequence_of_fitting hwidth hfit
        rw [if_pos hfit] at h
        cases h
        exact ⟨bs, more, _, hrest, hlength, hsequence, rfl⟩
      · rw [if_neg hfit] at h
        cases h

section Decoding

variable {cs : List Char}

theorem characters_skip (bs rest : List UInt8) : characters bs.length (bs ++ rest) = characters 0 rest := by
  induction bs with
  | nil => rfl
  | cons b bs ih => exact ih

-- A sequence in front is read as its character.
theorem characters_sequence (h : Sequence (a :: bs) n) (rest : List UInt8) :
    characters 0 (a :: bs ++ rest) = some (Char.ofNat n) :: characters 0 rest := by
  rw [List.cons_append, characters, first_of_sequence h]
  dsimp only
  rw [characters_skip]

theorem characters_bytes (cs : List Char) : characters 0 (bytes cs) = cs.map some := by
  induction cs with
  | nil => rfl
  | cons c cs ih =>
      obtain ⟨b, bs, hc⟩ := List.exists_cons_of_ne_nil (String.utf8EncodeChar_ne_nil (c := c))
      have hsequence := sequence_encodeChar c
      rw [hc] at hsequence
      have hbytes : bytes (c :: cs) = b :: bs ++ bytes cs := by
        rw [bytes, List.flatMap_cons, hc]
        rfl
      rw [hbytes, characters_sequence hsequence, ih, Char.ofNat_toNat, List.map_cons]

theorem eq_bytes_of_characters (h : characters 0 bs = cs.map some) : bs = bytes cs := by
  induction cs generalizing bs with
  | nil =>
      cases bs with
      | nil => rfl
      | cons b bs => cases h
  | cons c cs ih =>
      cases bs with
      | nil => cases h
      | cons b rest =>
          obtain ⟨found, k, hfirst⟩ : ∃ found k, first b rest = (found, k) := ⟨_, _, rfl⟩
          rw [characters, hfirst] at h
          obtain ⟨rfl, hrest⟩ := List.cons.inj h
          obtain ⟨bs, more, n, rfl, rfl, hsequence, rfl⟩ := sequence_of_first hfirst
          rw [characters_skip] at hrest
          rw [← List.cons_append, ih hrest, ← encodeChar_of_sequence hsequence]
          rfl

theorem mapM_id_eq_some {α : Type} {xs : List (Option α)} {ys : List α} :
    xs.mapM id = some ys ↔ xs = ys.map some := by
  induction xs generalizing ys with
  | nil => cases ys <;> simp
  | cons x xs ih =>
      rw [List.mapM_cons]
      simp only [Option.bind_eq_bind, Option.bind_eq_some_iff, ih]
      cases ys <;> simp

-- Bytes are read as a text exactly if they are its bytes.
theorem decode?_eq_some {s : String} : decode? bs = some s ↔ bs = encode s := by
  rw [decode?, Option.map_eq_some_iff, encode_eq]
  constructor
  · rintro ⟨cs, hcs, rfl⟩
    rw [String.toList_ofList]
    exact eq_bytes_of_characters (mapM_id_eq_some.1 hcs)
  · rintro rfl
    exact ⟨s.toList, mapM_id_eq_some.2 (characters_bytes s.toList), String.ofList_toList⟩

theorem decode?_encode (s : String) : decode? (encode s) = some s := decode?_eq_some.2 rfl

-- Some bytes that are a text.
def IsText (bs : List UInt8) : Prop := ∃ cs, bs = bytes cs

theorem isSome_decode? : (decode? bs).isSome ↔ IsText bs := by
  rw [Option.isSome_iff_exists]
  constructor
  · rintro ⟨s, hs⟩
    exact ⟨s.toList, by rw [← encode_eq, ← decode?_eq_some, hs]⟩
  · rintro ⟨cs, rfl⟩
    exact ⟨String.ofList cs, by rw [decode?_eq_some, encode_eq, String.toList_ofList]⟩

theorem bytes_append (cs ds : List Char) : bytes (cs ++ ds) = bytes cs ++ bytes ds :=
  List.flatMap_append

-- A character of ASCII divides the bytes of a text as it divides the text.
theorem splitAt_bytes {c : Char} (hc : c.val.toNat < 128) (cs : List Char) :
    splitAt c.toUInt8 (bytes cs) = (splitAt c cs).map bytes := by
  induction cs with
  | nil => rfl
  | cons d cs ih =>
      obtain ⟨first, parts, hparts⟩ := List.exists_cons_of_ne_nil (splitAt_ne_nil c cs)
      rw [hparts, List.map_cons] at ih
      have hbytes : bytes (d :: cs) = String.utf8EncodeChar d ++ bytes cs := List.flatMap_cons
      by_cases hd : d = c
      · subst hd
        rw [hbytes, encodeChar_of_ascii hc, List.singleton_append, splitAt, splitAt, if_pos rfl,
          if_pos rfl, ih, hparts]
        rfl
      · have hmem : c.toUInt8 ∉ String.utf8EncodeChar d := not_mem_encodeChar hc hd
        rw [hbytes, splitAt_append_of_not_mem hmem ih, splitAt, if_neg hd, hparts, List.map_cons]
        rfl

-- Bytes are a text exactly if they are one between all places of a character of ASCII.
theorem isText_iff_splitAt {c : Char} (hc : c.val.toNat < 128) :
    IsText bs ↔ ∀ part ∈ splitAt c.toUInt8 bs, IsText part := by
  constructor
  · rintro ⟨cs, rfl⟩ part hpart
    rw [splitAt_bytes hc] at hpart
    obtain ⟨ds, -, rfl⟩ := List.mem_map.1 hpart
    exact ⟨ds, rfl⟩
  · intro hparts
    obtain ⟨first, parts, hsplit⟩ := List.exists_cons_of_ne_nil (splitAt_ne_nil c.toUInt8 bs)
    rw [hsplit, List.forall_mem_cons] at hparts
    obtain ⟨⟨cs, rfl⟩, hparts⟩ := hparts
    have htail : IsText (parts.flatMap (c.toUInt8 :: ·)) := by
      clear hsplit
      induction parts with
      | nil => exact ⟨[], rfl⟩
      | cons part parts ih =>
          rw [List.forall_mem_cons] at hparts
          obtain ⟨⟨ds, rfl⟩, hrest⟩ := hparts
          obtain ⟨es, hes⟩ := ih hrest
          refine ⟨c :: ds ++ es, ?_⟩
          rw [List.flatMap_cons, hes, bytes_append, bytes, bytes, bytes, List.flatMap_cons,
            encodeChar_of_ascii hc]
          rfl
    obtain ⟨ds, hds⟩ := htail
    exact ⟨cs ++ ds, by rw [eq_of_splitAt hsplit, hds, bytes_append]⟩

end Decoding

end Census.Text.Utf8
