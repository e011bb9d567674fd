import Census.Proofs.Token.Place
import Mathlib.Algebra.Group.Nat.Defs

namespace Census

open Text

namespace Text

def isSpaceByte (b : UInt8) : Bool := [0x20, 0x09, 0x0d, 0x0a, 0x0c].contains b

-- The bytes of a source from number `start` up to number `stop` are spaces.
structure Blank (source : String) (start stop : Nat) : Prop where
  le : start ≤ stop
  space : (source.toUTF8.extract start stop).data.all isSpaceByte = true

theorem size_utf8Encode (cs : List Char) : cs.utf8Encode.size = utf8Size cs := by
  induction cs with
  | nil => rfl
  | cons c cs ih =>
      rw [List.utf8Encode_cons, ByteArray.size_append, ih, utf8Size]
      congr 1
      simp [List.utf8Encode]

-- The bytes that a part of a text takes in the whole.
theorem extract_utf8Encode (xs ys zs : List Char) :
    (xs ++ (ys ++ zs)).utf8Encode.extract (utf8Size xs) (utf8Size (xs ++ ys)) = ys.utf8Encode := by
  rw [← size_utf8Encode, ← size_utf8Encode, List.utf8Encode_append, List.utf8Encode_append,
    List.utf8Encode_append, ByteArray.size_append, ByteArray.extract_append, Nat.sub_self,
    Nat.add_sub_cancel_left, ByteArray.extract_append_size_left]
  have hempty : xs.utf8Encode.extract xs.utf8Encode.size
      (xs.utf8Encode.size + ys.utf8Encode.size) = ByteArray.empty :=
    ByteArray.extract_eq_empty_iff.2 (Nat.min_le_right _ _)
  rw [hempty, ByteArray.empty_append, ByteArray.extract_zero_size]

theorem all_isSpaceByte {cs : List Char} (h : cs.all Scan.isSpace = true) :
    cs.utf8Encode.data.all isSpaceByte = true := by
  have hchar : ∀ c, Scan.isSpace c = true → (String.utf8EncodeChar c).all isSpaceByte = true := by
    intro c hc
    have hc : c = ' ' ∨ c = '\t' ∨ c = '\r' ∨ c = '\n' ∨ c = '\x0c' := by
      simpa [Scan.isSpace, or_assoc] using hc
    rcases hc with rfl | rfl | rfl | rfl | rfl <;> decide
  rw [List.utf8Encode, List.data_toByteArray, List.all_toArray, List.all_flatMap, List.all_eq_true]
  exact fun c hc => hchar c (List.all_eq_true.1 h c hc)

theorem utf8ByteSize_eq (source : String) : source.utf8ByteSize = utf8Size source.toList := by
  rw [← size_utf8Encode, String.utf8Encode_toList]
  rfl

-- A part of a text that consists of spaces is blank in the bytes of the whole.
theorem blank_of_space {source : String} {before gap after : List Char}
    (h : source.toList = before ++ (gap ++ after)) (hgap : gap.all Scan.isSpace = true) :
    Blank source (utf8Size before) (utf8Size (before ++ gap)) := by
  refine ⟨by rw [utf8Size_append]; omega, ?_⟩
  rw [String.toUTF8, ← String.utf8Encode_toList, h, extract_utf8Encode]
  exact all_isSpaceByte hgap

end Text

-- The end of a token, or the beginning of the source if there is none.
def stopOf (last : Option Token) : Nat := last.elim 0 (·.stop)

-- What stands between a token and byte `start`, where the next one begins: spaces, and nothing
-- at all outside of code.
structure Gap (source : String) (last : Option Token) (start : Nat) : Prop where
  blank : Blank source (stopOf last) start
  bare : (last.all fun t => t.kind = .markup || t.kind = .closeTag) = true → stopOf last = start

-- There are such gaps in front of all tokens, and one behind them that reaches to byte `halt`.
def Spaced (source : String) (last : Option Token) : List Token → (halt : Nat) → Prop
  | [], halt => Gap source last halt
  | t :: tokens, halt => Gap source last t.start ∧ Spaced source (some t) tokens halt

-- The source from one byte to another, put together from the bytes in front of tokens, the texts
-- of the tokens, and the bytes behind them.
def rebuild (source : String) (start : Nat) : List Token → (halt : Nat) → ByteArray
  | [], halt => source.toUTF8.extract start halt
  | t :: tokens, halt =>
      source.toUTF8.extract start t.start ++ (t.text.toUTF8 ++ rebuild source t.stop tokens halt)

-- Tokens that make up a source up to byte `halt`.
structure Tiling (source : String) (tokens : List Token) (halt : Nat) : Prop where
  nonempty : ∀ t ∈ tokens, t.start < t.stop
  text : ∀ t ∈ tokens, t.text.toUTF8 = source.toUTF8.extract t.start t.stop
  ordered : tokens.Pairwise fun a b => a.stop ≤ b.start
  spaced : Spaced source none tokens halt
  inside : halt ≤ source.utf8ByteSize
  whole : rebuild source 0 tokens halt = source.toUTF8.extract 0 halt

namespace Tiles

variable {source : String} {before rest : List Char} {mode : Mode} {tokens : List Token}
  {ending : Option LexError}

-- Offsets in a source that is short enough are the true ones.
theorem offset_eq (hsize : source.utf8ByteSize < 2 ^ 32) (h : source.toList = before ++ rest) :
    Token.offset (utf8Size before) = utf8Size before := by
  refine Token.offset_of_lt (Nat.lt_of_le_of_lt ?_ hsize)
  rw [utf8ByteSize_eq, h, utf8Size_append]
  omega

-- The bytes of a token.
theorem range (hsize : source.utf8ByteSize < 2 ^ 32) {t : Token} {after : List Char}
    (h : source.toList = before ++ (t.text.toList ++ after))
    (hstands : t.StandsBehind source.toList before) :
    t.start = utf8Size before ∧ t.stop = utf8Size (before ++ t.text.toList) ∧ t.start < t.stop ∧
      t.text.toUTF8 = source.toUTF8.extract t.start t.stop := by
  have hstart := hstands.start.trans (offset_eq hsize h)
  have hstop := hstands.stop.trans (offset_eq hsize (h.trans (List.append_assoc ..).symm))
  refine ⟨hstart, hstop, ?_, ?_⟩
  · rw [hstart, hstop, utf8Size_append]
    cases htext : t.text.toList with
    | nil => exact absurd htext hstands.nonempty
    | cons c text =>
        have hpos := c.utf8Size_pos
        rw [utf8Size]
        omega
  · rw [hstart, hstop, String.toUTF8, String.toUTF8, ← String.utf8Encode_toList,
      ← String.utf8Encode_toList, h, extract_utf8Encode]

theorem ordered (hsize : source.utf8ByteSize < 2 ^ 32) (h : source.toList = before ++ rest)
    (htiles : Tiles source.toList mode before rest tokens ending) :
    tokens.Pairwise fun a b => a.stop ≤ b.start := by
  induction htiles with
  | ended | refused => exact .nil
  | @token mode before gap rest t tokens ending space bare kind stands behind ih =>
      have hsplit : source.toList = before ++ gap ++ (t.text.toList ++ rest) := by simpa using h
      have hbehind : source.toList = before ++ gap ++ t.text.toList ++ rest := by simpa using h
      refine .cons (fun u hu => ?_) (ih hbehind)
      obtain ⟨skipped, after, rfl, hstands⟩ := behind.stands u hu
      rw [(range hsize hsplit stands).2.1, (range hsize (by simpa using hbehind) hstands).1,
        utf8Size_append _ skipped]
      omega

-- Where the tokens end: at the end of the text, or in front of a text that is refused.
theorem spaced (hsize : source.utf8ByteSize < 2 ^ 32) (h : source.toList = before ++ rest)
    (htiles : Tiles source.toList mode before rest tokens ending) {last : Option Token}
    (hlast : stopOf last = utf8Size before)
    (hbare : (last.all fun t => t.kind = .markup || t.kind = .closeTag) = true → mode = .markup) :
    ∃ halted unread, source.toList = halted ++ unread ∧ Spaced source last tokens (utf8Size halted) ∧
      ending.elim (unread = []) fun e =>
        ∃ c after, unread = c :: after ∧ Scan.isSpace c = false ∧ e.Refuses unread := by
  induction htiles generalizing last with
  | @ended mode before gap space bare =>
      refine ⟨before ++ gap, [], by simpa using h, ⟨?_, fun hlast' => ?_⟩, rfl⟩
      · rw [hlast]
        have hsplit : source.toList = before ++ (gap ++ []) := by simpa using h
        exact blank_of_space hsplit space
      · rw [hlast, bare (hbare hlast'), List.append_nil]
  | @refused before gap rest c e space visible refuses here =>
      refine ⟨before ++ gap, c :: rest, by simpa using h, ⟨?_, fun hlast' => ?_⟩,
        c, rest, rfl, visible, refuses⟩
      · rw [hlast]
        exact blank_of_space h space
      · cases hbare hlast'
  | @token mode before gap rest t tokens ending space bare kind stands behind ih =>
      have hsplit : source.toList = before ++ gap ++ (t.text.toList ++ rest) := by simpa using h
      obtain ⟨hstart, hstop, -⟩ := range hsize hsplit stands
      have hbehind : (t.kind = .markup || t.kind = .closeTag) = true →
          mode.behind t.kind = .markup := by
        cases mode with
        | markup => rcases hkind : t.kind with _ | _ <;> simp [Mode.behind]
        | code =>
            have hkind := kind rfl
            simp [Mode.behind, hkind]
      obtain ⟨halted, unread, hhalted, hspaced, hunread⟩ :=
        ih (by simpa using h) (show stopOf (some t) = _ from hstop) hbehind
      refine ⟨halted, unread, hhalted, ⟨⟨?_, fun hlast' => ?_⟩, hspaced⟩, hunread⟩
      · rw [hlast, hstart]
        exact blank_of_space h space
      · rw [hlast, hstart, bare (hbare hlast'), List.append_nil]

end Tiles

theorem extract_append_extract (bytes : ByteArray) {i j k : Nat} (hij : i ≤ j) (hjk : j ≤ k) :
    bytes.extract i j ++ bytes.extract j k = bytes.extract i k := by
  rw [ByteArray.extract_append_extract, Nat.min_eq_left hij, Nat.max_eq_right hjk]

theorem rebuild_eq {source : String} {last : Option Token} {tokens : List Token} {halt : Nat}
    (hspaced : Spaced source last tokens halt)
    (htokens : ∀ t ∈ tokens, t.start < t.stop ∧ t.text.toUTF8 = source.toUTF8.extract t.start t.stop) :
    stopOf last ≤ halt ∧
      rebuild source (stopOf last) tokens halt = source.toUTF8.extract (stopOf last) halt := by
  induction tokens generalizing last with
  | nil => exact ⟨hspaced.blank.le, rfl⟩
  | cons t tokens ih =>
      obtain ⟨hgap, hspaced⟩ := hspaced
      obtain ⟨hlt, htext⟩ := htokens t List.mem_cons_self
      obtain ⟨hle, hrest⟩ : t.stop ≤ halt ∧
          rebuild source t.stop tokens halt = source.toUTF8.extract t.stop halt :=
        ih hspaced fun u hu => htokens u (List.mem_cons_of_mem _ hu)
      have hgap := hgap.blank.le
      refine ⟨by omega, ?_⟩
      rw [rebuild, htext, hrest, extract_append_extract _ (by omega) hle,
        extract_append_extract _ hgap (by omega)]

-- The tokens make up the source: as far as it can be read if there is an error, and all of it if
-- there is none. The tokenizer answers with these tokens and the error, and then has ended.
theorem tokenize_tiling {source : String} (hsize : source.utf8ByteSize < 2 ^ 32) :
    (∃ halted unread, source.toList = halted ++ unread ∧
      Tiling source (tokenize source).1 (utf8Size halted) ∧
      (tokenize source).2.elim (unread = []) fun e =>
        ∃ c after, unread = c :: after ∧ Scan.isSpace c = false ∧ e.Refuses unread) ∧
    ∀ n, (Tokenizer.ofSource source).answer n =
      ((tokenize source).1.map .ok ++ (tokenize source).2.toList.map .error)[n]? := by
  refine ⟨?_, (Tokenizer.agrees_ofSource source).answer_eq⟩
  have htiles := tokenize_tiles source
  obtain ⟨halted, unread, hsplit, hspaced, hunread⟩ :=
    htiles.spaced hsize rfl (show stopOf none = _ from rfl) fun _ => rfl
  have htokens : ∀ t ∈ (tokenize source).1,
      t.start < t.stop ∧ t.text.toUTF8 = source.toUTF8.extract t.start t.stop := by
    intro t ht
    obtain ⟨skipped, after, h, hstands⟩ := htiles.stands t ht
    exact (Tiles.range hsize h hstands).2.2
  refine ⟨halted, unread, hsplit, ?_, hunread⟩
  refine ⟨fun t ht => (htokens t ht).1, fun t ht => (htokens t ht).2, htiles.ordered hsize rfl,
    hspaced, ?_, (rebuild_eq hspaced htokens).2⟩
  rw [utf8ByteSize_eq, hsplit, utf8Size_append]
  omega

-- A source whose last quote nothing closes is read up to that quote.
theorem tokenize_tiling_unterminated : "<?php $a = 'b".utf8ByteSize < 2 ^ 32 ∧
    ∃ halted unread, "<?php $a = 'b".toList = halted ++ unread ∧
      Tiling "<?php $a = 'b" (tokenize "<?php $a = 'b").1 (utf8Size halted) ∧
      Scan.code unread = .unterminated .singleQuote := by
  have hsize : "<?php $a = 'b".utf8ByteSize < 2 ^ 32 := by decide
  have hending : (tokenize "<?php $a = 'b").2 = some (.unterminated ⟨1, 12⟩ .singleQuote) := by
    decide +kernel
  obtain ⟨halted, unread, hsplit, htiling, hunread⟩ := (tokenize_tiling hsize).1
  rw [hending] at hunread
  obtain ⟨c, after, -, -, hrefuses⟩ := hunread
  exact ⟨hsize, halted, unread, hsplit, htiling, hrefuses⟩

end Census
