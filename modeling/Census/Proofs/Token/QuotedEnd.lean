import Census.Proofs.Token.LongestMatch

namespace Census

open Text Scan

variable {source : String} {cs before more : List Char} {quote : Char} {passed later : List Token}
  {ending : Option LexError}

namespace Scan

-- What a quoted text is read in: a backslash together with the character behind it, or else a
-- single character.
def units : List Char → List (List Char)
  | [] => []
  | c :: rest =>
      if c = '\\' then
        match rest with
        | [] => [[c]]
        | d :: rest => [c, d] :: units rest
      else [c] :: units rest

theorem units_pair (c : Char) (rest : List Char) : units ('\\' :: c :: rest) = ['\\', c] :: units rest := rfl

theorem units_single {c : Char} (hc : c ≠ '\\') (rest : List Char) :
    units (c :: rest) = [c] :: units rest := by
  rw [units.eq_def]
  simp only [if_neg hc]

theorem flatten_units (cs : List Char) : (units cs).flatten = cs := by
  induction cs using units.induct with
  | case1 | case2 => rfl
  | case3 c rest ih => rw [units_pair, List.flatten_cons, ih]; rfl
  | case4 c rest hc ih => rw [units_single hc, List.flatten_cons, ih]; rfl

-- The first unit that is the quote ends the text.
theorem quotedLength_units {front behind : List (List Char)} (hquote : quote ≠ '\\')
    (h : units cs = front ++ [quote] :: behind) (hfirst : [quote] ∉ front) :
    quotedLength quote cs = some (front.flatten ++ [quote]).length := by
  induction cs using units.induct generalizing front with
  | case1 => exact absurd h.symm (List.append_ne_nil_of_right_ne_nil _ (List.cons_ne_nil _ _))
  | case2 =>
      cases front with
      | nil => exact absurd (List.cons.inj (List.cons.inj h).1).1.symm hquote
      | cons u front => exact absurd (List.cons.inj h).2 (by simp)
  | case3 c rest ih =>
      rw [units_pair] at h
      cases front with
      | nil => exact absurd (List.cons.inj (List.cons.inj h).1).2 (List.cons_ne_nil c [])
      | cons u front =>
          obtain ⟨rfl, hrest⟩ := List.cons.inj h
          rw [quotedLength_pair, ih hrest fun hmem => hfirst (List.mem_cons_of_mem _ hmem)]
          rfl
  | case4 c rest hc ih =>
      rw [units_single hc] at h
      cases front with
      | nil =>
          obtain rfl : c = quote := (List.cons.inj (List.cons.inj h).1).1
          exact quotedLength_quote hc rest
      | cons u front =>
          obtain ⟨rfl, hrest⟩ := List.cons.inj h
          rw [List.mem_cons, not_or] at hfirst
          rw [quotedLength_other hc (fun heq => hfirst.1 (heq ▸ rfl)), ih hrest hfirst.2]
          rfl

theorem quotedLength_open (h : [quote] ∉ units cs) : quotedLength quote cs = none := by
  induction cs using units.induct with
  | case1 | case2 => rfl
  | case3 c rest ih =>
      rw [units_pair, List.mem_cons, not_or] at h
      rw [quotedLength_pair, ih h.2, Option.map_none]
  | case4 c rest hc ih =>
      rw [units_single hc, List.mem_cons, not_or] at h
      rw [quotedLength_other hc (fun heq => h.1 (heq ▸ rfl)), ih h.2, Option.map_none]

-- The delimiter that an open quoted text waits for.
def closerOf (quote : Char) : Closer := if quote = '"' then .doubleQuote else .singleQuote

theorem describe_closerOf (hquote : isQuote quote = true) : (closerOf quote).describe = quote.toString := by
  rcases eq_of_isQuote hquote with rfl | rfl <;> rfl

theorem code_quote (hquote : isQuote quote = true) (more : List Char) : code (quote :: more) =
    (quotedLength quote more).elim (.unterminated (closerOf quote)) fun n => .token .string (n + 1) := by
  have hcode : code (quote :: more) = quotedString quote (closerOf quote) (quote :: more) := by
    rcases eq_of_isQuote hquote with rfl | rfl <;> rfl
  exact hcode.trans (quotedString_eq hquote _ _)

end Scan

-- What becomes of a quoted text whose opening quote stands behind `before`, with `more` behind the
-- quote. The scan of the bytes ends where the reading in units does, so behind whole characters.
structure QuotedRead (cs before : List Char) (quote : Char) (more : List Char) (later : List Token)
    (ending : Option LexError) : Prop where
  closed : [quote] ∈ units more → ∃ front behind,
    units more = front ++ [quote] :: behind ∧ [quote] ∉ front ∧
    quotedEnd quote.toUInt8 0 (Utf8.bytes more) = some (utf8Size (front.flatten ++ [quote])) ∧
    ∃ t others, later = t :: others ∧ t.kind = .string ∧ t.StandsBehind cs before ∧
      t.text.toList = quote :: (front.flatten ++ [quote])
  unclosed : [quote] ∉ units more → quotedEnd quote.toUInt8 0 (Utf8.bytes more) = none ∧
    later = [] ∧ ∃ closer : Closer, closer.describe = quote.toString ∧
      ending = some (.unterminated (.ofIndex cs before.length) closer)

theorem quotedRead_of_reported (hquote : isQuote quote = true)
    (h : (code (quote :: more)).Reported cs before (quote :: more) later ending) :
    QuotedRead cs before quote more later ending := by
  have hbackslash : quote ≠ '\\' := by
    rintro rfl
    cases hquote
  rw [code_quote hquote] at h
  have hbytes := quotedEnd_bytes hquote more 0
  refine ⟨fun hmem => ?_, fun hnot => ?_⟩
  · obtain ⟨front, behind, hunits, hfirst⟩ := List.eq_append_cons_of_mem hmem
    have hlength := quotedLength_units hbackslash hunits hfirst
    have hmore : more = (front.flatten ++ [quote]) ++ behind.flatten := by
      rw [← flatten_units more, hunits, List.flatten_append, List.flatten_cons, List.append_assoc]
    have htake : more.take (front.flatten ++ [quote]).length = front.flatten ++ [quote] := by
      rw [hmore, List.take_left]
    rw [hlength] at h hbytes
    rw [Option.map_some, htake, Nat.zero_add] at hbytes
    obtain ⟨t, others, hlater, hkind, ht, hstands⟩ := h
    rw [List.take_succ_cons, htake] at ht
    exact ⟨front, behind, hunits, hfirst, hbytes, t, others, hlater, hkind, hstands, ht⟩
  · rw [quotedLength_open hnot] at h hbytes
    obtain ⟨hlater, hending⟩ := h
    exact ⟨hbytes, hlater, closerOf quote, describe_closerOf hquote, hending⟩

-- Wherever a token of code may begin with a quote, it ends at the first quote of this kind that
-- no backslash takes along, and without one the literal is left open.
theorem tokenize_quoted (h : (tokenize source).1 = passed ++ later)
    (hcode : Mode.markup.behindAll passed = .code) : ∃ read gap rest,
      source.toList = read ++ (gap ++ rest) ∧
      (passed.getLast?.elim (read = []) fun t => t.stop = Token.offset (utf8Size read)) ∧
      gap.all isSpace = true ∧ headIs isSpace rest = false ∧
      ∀ quote more, rest = quote :: more → isQuote quote = true →
        QuotedRead source.toList (read ++ gap) quote more later (tokenize source).2 := by
  obtain ⟨lexer, read, hat, hmode, htokens, hstop⟩ := tokenize_append h
  obtain ⟨gap, rest, hrest, hspace, hvisible, -, hreported⟩ := lexer.reported hat (hmode.trans hcode)
  rw [htokens] at hreported
  refine ⟨read, gap, rest, by rw [hat.split, hrest], hstop, hspace, hvisible, ?_⟩
  rintro quote more rfl hquote
  exact quotedRead_of_reported hquote (hreported (List.cons_ne_nil quote more))

-- A multi-byte character and a quote behind backslashes, and two backslashes before the closing quote.
theorem tokenize_quoted_escaped :
    let source := "<?php '\\é\\'x\\\\';"
    Mode.markup.behindAll ((tokenize source).1.take 1) = .code ∧ (∃ read gap rest,
      source.toList = read ++ (gap ++ rest) ∧ gap.all isSpace = true ∧ headIs isSpace rest = false ∧
      ∀ quote more, rest = quote :: more → isQuote quote = true →
        QuotedRead source.toList (read ++ gap) quote more ((tokenize source).1.drop 1) (tokenize source).2) ∧
    ((tokenize source).1.drop 1).map (·.text) = ["'\\é\\'x\\\\'", ";"] := by
  intro source
  have hcode : Mode.markup.behindAll ((tokenize source).1.take 1) = .code := by decide +kernel
  obtain ⟨read, gap, rest, hsplit, -, hspace, hvisible, hread⟩ :=
    tokenize_quoted (List.take_append_drop 1 _).symm hcode
  exact ⟨hcode, ⟨read, gap, rest, hsplit, hspace, hvisible, hread⟩, by decide +kernel⟩

end Census
