import Census.Proofs.Token.Heredoc
import Census.Proofs.Token.Longest
import Census.Proofs.Token.Resumption

namespace Census

open Text Scan

variable {source : String} {cs before rest text more : List Char} {passed later : List Token}
  {ending : Option LexError} {kind : TokenKind} {n : Nat}

-- What an opener leads to: a token that contains all of the opener, an error about its end, or no
-- token if it opens a heredoc without a header.
inductive Opener.Leads (o : Opener) (more : List Char) : Found → Prop
  | token {n : Nat} (le : o.text.length ≤ n) : o.Leads more (.token o.kind n)
  | unterminated (closer : Closer) : o.Leads more (.unterminated closer)
  | unexpected (heredoc : o = .heredoc) (bare : heredocHeader more = none) : o.Leads more .unexpected

theorem Opener.leads_read (o : Opener) (more : List Char) : o.Leads more (o.read more) := by
  have ended (stop : Option Nat) (closer : Closer) (m : Nat → Nat) (hm : ∀ n, o.text.length ≤ m n) :
      o.Leads more (stop.elim (.unterminated closer) fun n => .token o.kind (m n)) := by
    cases stop with
    | none => exact .unterminated closer
    | some n => exact .token (hm n)
  cases o with
  | slashes | hash => exact .token (Nat.le_add_right _ _)
  | blockComment => exact ended _ _ _ fun n => by omega
  | docComment =>
      rw [read]
      split
      · exact .token (Nat.le_add_right _ _)
      · exact ended _ _ _ fun n => by omega
  | singleQuote | doubleQuote => exact ended _ _ _ fun n => by omega
  | heredoc =>
      rw [read, Scan.heredoc]
      split
      · exact .unexpected rfl ‹_›
      · dsimp only
        split
        · exact .unterminated _
        · exact .token (by change 3 ≤ _; omega)

namespace Pattern

-- A token contains all of the text that its pattern fits.
theorem kind_of_read {p : Pattern} (hp : text ∈ p.language) (h : p.read text more = .token kind n) :
    kind = p.kind ∧ text.length ≤ n := by
  cases p with
  | opener o =>
      obtain rfl : text = o.text.toList := hp
      have hleads := o.leads_read more
      rw [show o.read more = .token kind n from h] at hleads
      cases hleads with
      | token le => exact ⟨rfl, String.length_toList ▸ le⟩
  | _ =>
      cases h
      exact ⟨rfl, Nat.le_refl _⟩

end Pattern

namespace Scan

-- Where code can be read, nothing of it is refused but a text that no pattern fits, and a heredoc
-- without a header.
theorem code_eq_unexpected : code cs = .unexpected ↔
    (∀ (p : Pattern) text, ¬p.Fits cs text) ∨
      ∃ more, cs = "<<<".toList ++ more ∧ ∀ text ∈ Pattern.header, ¬text <+: more := by
  constructor
  · intro h
    by_cases hfits : ∃ (p : Pattern) (text : List Char), p.Fits cs text
    · obtain ⟨p, text, hp⟩ := Pattern.exists_longest hfits
      obtain ⟨more, rfl⟩ := hp.fits.front
      rw [hp.code_eq] at h
      cases p with
      | opener o =>
          obtain rfl : text = o.text.toList := hp.mem
          have hleads := o.leads_read more
          rw [show o.read more = .unexpected from h] at hleads
          cases hleads with
          | unexpected hheredoc hbare =>
              subst hheredoc
              exact .inr ⟨more, rfl, heredocHeader_eq_none.1 hbare⟩
      | _ => cases h
    · exact .inl fun p text hp => hfits ⟨p, text, hp⟩
  · rintro (hnot | ⟨more, rfl, hnot⟩)
    · exact code_of_not_fits hnot
    · have hcode : code ("<<<".toList ++ more) = Scan.heredoc ("<<<".toList ++ more) := rfl
      have hbare : heredocHeader (("<<<".toList ++ more).drop 3) = none := heredocHeader_eq_none.2 hnot
      rw [hcode, Scan.heredoc, hbare]

-- Whatever token is read in code, the longest match begins it.
theorem longest_of_code (h : code (text ++ more) = .token kind text.length) :
    ∃ (p : Pattern) (front part : List Char), text = front ++ part ∧
      p.Longest (front ++ (part ++ more)) front ∧ p.kind = kind ∧
      p.read front (part ++ more) = .token kind (front.length + part.length) := by
  have hfits : ∃ (p : Pattern) (front : List Char), p.Fits (text ++ more) front := by
    by_contra hnot
    rw [code_of_not_fits fun p front hp => hnot ⟨p, front, hp⟩] at h
    cases h
  obtain ⟨p, front, hp⟩ := Pattern.exists_longest hfits
  obtain ⟨behind, hsplit⟩ := hp.fits.front
  have hread : code (front ++ behind) = p.read front behind :=
    Pattern.Longest.code_eq (by rwa [hsplit])
  rw [hsplit, h] at hread
  obtain ⟨rfl, hle⟩ := Pattern.kind_of_read hp.mem hread.symm
  obtain ⟨part, rfl⟩ : front <+: text :=
    List.prefix_of_prefix_length_le hp.fits.front (List.prefix_append text more) hle
  obtain rfl : behind = part ++ more :=
    List.append_cancel_left (hsplit.trans (List.append_assoc front part more))
  rw [List.append_assoc] at hp
  rw [List.length_append] at hread
  exact ⟨p, front, part, rfl, hp, rfl, hread.symm⟩

-- What has been found at the beginning of `rest`, which stands behind `before`, makes up the
-- tokens from there on and the error behind them.
def Found.Reported (cs before rest : List Char) (later : List Token) (ending : Option LexError) :
    Found → Prop
  | .token kind n => ∃ t others, later = t :: others ∧ t.kind = kind ∧ t.text.toList = rest.take n ∧
      t.StandsBehind cs before
  | .unterminated closer =>
      later = [] ∧ ending = some (.unterminated (.ofIndex cs before.length) closer)
  | .unexpected => later = [] ∧ ∃ c, rest.head? = some c ∧
      ending = some (.unexpectedCharacter (.ofIndex cs before.length) c)

end Scan

-- At a text of code, the longest text that some pattern fits is matched.
structure LongestMatch (cs before rest : List Char) (later : List Token) (ending : Option LexError) :
    Prop where
  -- One of the longest texts is there as soon as any pattern fits.
  longest : (∃ (p : Pattern) (text : List Char), p.Fits rest text) →
    ∃ (p : Pattern) (text : List Char), p.Longest rest text
  -- The token has the kind of the pattern. Only openers read on behind their text.
  matched : ∀ (p : Pattern) text more, p.Longest rest text → rest = text ++ more →
    (p.read text more).Reported cs before rest later ending ∧
      ∀ t ∈ later.head?, t.kind = p.kind ∧ text <+: t.text.toList
  keyword : ∀ (p : Pattern) text (k : Keyword), p.Longest rest text → text ∈ Pattern.name →
    text.map Char.toLower = k.word.toList →
      (Found.token (.keyword k) text.length).Reported cs before rest later ending
  identifier : ∀ (p : Pattern) text, p.Longest rest text → text ∈ Pattern.name →
    (∀ k : Keyword, text.map Char.toLower ≠ k.word.toList) →
      (Found.token .identifier text.length).Reported cs before rest later ending
  unexpected : (later = [] ∧ ∃ position c, ending = some (.unexpectedCharacter position c)) ↔
    (∀ (p : Pattern) text, ¬p.Fits rest text) ∨
      ∃ more, rest = "<<<".toList ++ more ∧ ∀ text ∈ Pattern.header, ¬text <+: more

namespace Pattern.Longest

variable {p : Pattern}

-- A name that is the longest text is a keyword or an identifier.
theorem code_of_name (h : p.Longest (text ++ more) text) (hname : text ∈ name) :
    code (text ++ more) =
      .token ((Keyword.ofName? (String.ofList text)).elim .identifier .keyword) text.length :=
  code_word (mem_name.1 hname).1 (mem_name.1 hname).2
    (h.not_headIs (q := .identifier) hname takes_name)

end Pattern.Longest

-- Whatever is reported of a text of code is the longest match.
theorem longestMatch_of_reported (hrest : rest ≠ [])
    (h : (code rest).Reported cs before rest later ending) :
    LongestMatch cs before rest later ending := by
  refine ⟨Pattern.exists_longest, ?_, ?_, ?_, ?_⟩
  · rintro p text more hp rfl
    rw [hp.code_eq] at h
    refine ⟨h, fun t ht => ?_⟩
    cases hread : p.read text more with
    | token kind n =>
        rw [hread] at h
        obtain ⟨u, others, rfl, hkind, htext, -⟩ := h
        obtain rfl : u = t := by simpa using ht
        obtain ⟨rfl, hle⟩ := Pattern.kind_of_read hp.mem hread
        refine ⟨hkind, ?_⟩
        rw [htext]
        exact List.prefix_take_iff.2 ⟨List.prefix_append text more, hle⟩
    | unterminated closer =>
        rw [hread] at h
        rw [h.1] at ht
        cases ht
    | unexpected =>
        rw [hread] at h
        rw [h.1] at ht
        cases ht
  · rintro p text k hp hname hlower
    obtain ⟨more, rfl⟩ := hp.fits.front
    rwa [hp.code_of_name hname, Keyword.ofName?_eq_some.2 hlower] at h
  · rintro p text hp hname hnot
    obtain ⟨more, rfl⟩ := hp.fits.front
    have hnone : Keyword.ofName? (String.ofList text) = none :=
      Option.eq_none_iff_forall_ne_some.2 fun k hk => hnot k (Keyword.ofName?_eq_some.1 hk)
    rwa [hp.code_of_name hname, hnone] at h
  · rw [← code_eq_unexpected]
    cases hcode : code rest with
    | token kind n =>
        rw [hcode] at h
        obtain ⟨t, others, rfl, -⟩ := h
        simp
    | unterminated closer =>
        rw [hcode] at h
        simp [h.2]
    | unexpected =>
        rw [hcode] at h
        obtain ⟨hlater, c, -, hending⟩ := h
        simp [hlater, hending]

namespace Lexer

variable {lexer : Lexer}

-- What a lexer in code reports.
theorem reported (hat : lexer.At cs before) (hmode : lexer.mode = .code) :
    ∃ gap rest, lexer.rest = gap ++ rest ∧ gap.all isSpace = true ∧ headIs isSpace rest = false ∧
      (rest = [] → lexer.tokens = ([], none)) ∧
      (rest ≠ [] → (code rest).Reported cs (before ++ gap) rest lexer.tokens.1 lexer.tokens.2) := by
  refine ⟨lexer.rest.take lexer.gap, lexer.rest.drop lexer.gap, (List.take_append_drop _ _).symm,
    lexer.gap_space, ?_, fun hnil => tokens_of_none (next?_of_nil hnil), fun hne => ?_⟩
  · rw [gap, hmode, drop_run]
    exact headIs_dropWhile _
  · obtain ⟨c, rest, hrest⟩ := List.exists_cons_of_ne_nil hne
    have hfound : lexer.found = code (c :: rest) := by rw [found, hmode, hrest]
    have hnext := next?_of_cons hrest
    have hhere := (hat.skip lexer.gap_le).position
    rw [hrest, ← hfound]
    cases hcode : lexer.found with
    | token kind n =>
        rw [hcode] at hnext
        have hreads := reads_take hrest hcode
        have htext := (lexer.skip lexer.gap).take_text kind n (lexer.mode.behind kind)
        rw [show (lexer.skip lexer.gap).rest = c :: rest from hrest] at htext
        rw [tokens_of_next? hnext]
        exact ⟨_, _, rfl, rfl, htext, (hreads.stands cs before hat).1⟩
    | unterminated closer =>
        rw [hcode] at hnext
        rw [tokens_of_error hnext, hhere]
        exact ⟨rfl, rfl⟩
    | unexpected =>
        rw [hcode] at hnext
        rw [tokens_of_error hnext, hhere]
        exact ⟨rfl, c, rfl, rfl⟩

end Lexer

-- Wherever a token of code may begin, the lexer takes the longest match.
theorem tokenize_longest (h : (tokenize source).1 = passed ++ later)
    (hcode : Mode.markup.behindAll passed = .code) : ∃ read gap rest,
      source.toList = read ++ (gap ++ rest) ∧
      (passed.getLast?.elim (read = []) fun t => t.stop = Token.offset (utf8Size read)) ∧
      gap.all isSpace = true ∧ headIs isSpace rest = false ∧
      (rest = [] → later = [] ∧ (tokenize source).2 = none) ∧
      (rest ≠ [] → LongestMatch source.toList (read ++ gap) rest later (tokenize source).2) := by
  obtain ⟨lexer, read, hat, hmode, htokens, hstop⟩ := tokenize_append h
  obtain ⟨gap, rest, hrest, hspace, hvisible, hend, hreported⟩ := lexer.reported hat (hmode.trans hcode)
  rw [htokens] at hend hreported
  refine ⟨read, gap, rest, by rw [hat.split, hrest], hstop, hspace, hvisible, fun hnil => ?_,
    fun hne => longestMatch_of_reported hne (hreported hne)⟩
  exact Prod.mk.inj (hend hnil)

-- A sign behind the letter of an exponent does not make one without digits: the number ends in
-- front of the letter.
theorem tokenize_longest_exponent :
    Mode.markup.behindAll ((tokenize "<?php 1e+;").1.take 1) = .code ∧ ∃ read gap rest,
      "<?php 1e+;".toList = read ++ (gap ++ rest) ∧ gap.all isSpace = true ∧
      headIs isSpace rest = false ∧ (rest ≠ [] → LongestMatch "<?php 1e+;".toList (read ++ gap) rest
        ((tokenize "<?php 1e+;").1.drop 1) (tokenize "<?php 1e+;").2) ∧
      ((tokenize "<?php 1e+;").1.drop 1).map (·.text) = ["1", "e", "+", ";"] := by
  have hcode : Mode.markup.behindAll ((tokenize "<?php 1e+;").1.take 1) = .code := by decide +kernel
  obtain ⟨read, gap, rest, hsplit, -, hspace, hvisible, -, hmatch⟩ :=
    tokenize_longest (List.take_append_drop 1 _).symm hcode
  exact ⟨hcode, read, gap, rest, hsplit, hspace, hvisible, hmatch, by decide +kernel⟩

end Census
