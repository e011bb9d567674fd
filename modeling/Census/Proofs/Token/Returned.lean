import Census.Proofs.Token.LineEnd
import Census.Proofs.Token.Place
import Mathlib.Data.List.Forall2

namespace Census

open Text

namespace Text

-- Where the last character is no line feed, one less of a text becomes one less.
theorem Firm.stretch_pred {cs : List Char} {n : Nat} (h : Firm n cs) (hn : n ≠ 0) :
    stretch n cs - 1 = stretch (n - 1) cs := by
  obtain ⟨m, rfl⟩ := Nat.exists_eq_succ_of_ne_zero hn
  have hlast : Clear 1 (cs.drop m) := by
    have hm : m < cs.length := h.le
    rw [List.drop_eq_getElem_cons hm]
    refine ⟨Nat.succ_pos _, List.forall_mem_singleton.2 (h.last _ ?_)⟩
    rw [List.take_add_one, List.getElem?_eq_getElem hm, Option.toList_some, List.getLast?_concat]
    rfl
  rw [Nat.succ_eq_add_one, stretch_add, hlast.stretch_eq, Nat.add_sub_cancel, Nat.add_sub_cancel]

end Text

-- Code that no markup stands in front of begins with its tag.
theorem Scan.opensCode_of_markupLength {c : Char} {cs : List Char}
    (h : markupLength (c :: cs) = 0) : opensCode (c :: cs) = true := by
  rw [markupLength] at h
  cases hseek : seek opensCode (c :: cs) with
  | none =>
      rw [hseek] at h
      cases h
  | some n =>
      rw [hseek] at h
      obtain rfl : n = 0 := h
      exact seek_holds hseek

-- A carriage return and the line feed behind it are one line break.
theorem Position.advance_crlf (p : Position) (n : Nat) {cs : List Char} (h : '\r' ∉ cs) :
    p.advance (stretch n cs) (crlf cs) = p.advance n cs := by
  induction n generalizing p cs with
  | zero => rfl
  | succ n ih =>
      cases cs with
      | nil => rfl
      | cons c cs =>
          obtain ⟨hc, hcs⟩ := not_or.1 (mt List.mem_cons.2 h)
          rcases eq_or_ne c '\n' with rfl | hbreak
          · rw [crlf_break, stretch_break, advance, advance, advance, ← ih _ hcs]
            simp [after]
          · rw [crlf_cons hbreak, stretch_cons hbreak, advance, advance, ← ih _ hcs]
            simp [after, hbreak, Ne.symm hc]

-- A token, and what becomes of it when its source is written with carriage returns. Only markup
-- can end with a line break, whose last character moves.
structure Token.Returned (t t' : Token) : Prop where
  kind : t'.kind = t.kind
  text : t'.text = crlfText t.text
  start : t'.span.start = t.span.start
  stop : t.kind ≠ .markup → t'.span.stop = t.span.stop

namespace Lexer

-- Two lexers at the same place of a source and of its form with carriage returns.
structure Returned (lexer lexer' : Lexer) : Prop where
  mode : lexer'.mode = lexer.mode
  position : lexer'.position = lexer.position
  rest : lexer'.rest = crlf lexer.rest
  bare : '\r' ∉ lexer.rest

-- What two such lexers answer.
inductive Answers : (answer answer' : Option (Except LexError (Token × Lexer))) → Prop
  | ended : Answers none none
  | refused (e : LexError) : Answers (some (.error e)) (some (.error e))
  | taken {t t' : Token} {next next' : Lexer} (token : t.Returned t') (behind : next.Returned next') :
      Answers (some (.ok (t, next))) (some (.ok (t', next')))

variable {lexer lexer' : Lexer} {kind : TokenKind} {n : Nat}

-- No token ends with part of a line break, unless it is markup.
theorem firm_found {c : Char} {cs : List Char} (hrest : lexer.rest.drop lexer.gap = c :: cs)
    (h : lexer.found = .token kind n) (hkind : kind ≠ .markup) : Firm n (c :: cs) := by
  rw [found] at h
  split at h
  · rename_i hmode
    rw [gap, hmode, List.drop_zero] at hrest
    rw [hrest] at h
    split at h
    · rename_i hlength
      cases h
      exact (Scan.clear_of_opensCode (Scan.opensCode_of_markupLength hlength)).firm
    · cases h
      exact absurd rfl hkind
  · rw [hrest] at h
    exact Scan.firm_of_code h

namespace Returned

theorem skip (h : lexer.Returned lexer') (n : Nat) :
    (lexer.skip n).Returned (lexer'.skip (stretch n lexer.rest)) where
  mode := h.mode
  position := by
    simp only [Lexer.skip, h.rest, h.position]
    exact Position.advance_crlf _ n h.bare
  rest := by
    simp only [Lexer.skip, h.rest]
    exact drop_stretch n _
  bare := fun hmem => h.bare (List.mem_of_mem_drop hmem)

theorem gap (h : lexer.Returned lexer') : lexer'.gap = stretch lexer.gap lexer.rest := by
  rw [Lexer.gap, Lexer.gap, h.mode, h.rest]
  cases lexer.mode with
  | markup => rfl
  | code => exact run_crlf rfl _

theorem take (h : lexer.Returned lexer') (hn : n ≠ 0) (hfirm : kind ≠ .markup → Firm n lexer.rest)
    (mode : Mode) : (lexer.take kind n mode).1.Returned
        (lexer'.take kind (stretch n lexer.rest) mode).1 ∧
      (lexer.take kind n mode).2.Returned (lexer'.take kind (stretch n lexer.rest) mode).2 := by
  refine ⟨⟨rfl, ?_, h.position, fun hkind => ?_⟩, ⟨rfl, (h.skip n).position, (h.skip n).rest,
    (h.skip n).bare⟩⟩
  · simp only [Lexer.take, h.rest, take_stretch, crlfText, String.toList_ofList]
  · simp only [Lexer.take, h.position, h.rest, (hfirm hkind).stretch_pred hn]
    exact Position.advance_crlf _ _ h.bare

theorem found (h : lexer.Returned lexer') {c : Char} {cs : List Char}
    (hrest : lexer.rest.drop lexer.gap = c :: cs) :
    lexer'.found = lexer.found.stretch (c :: cs) := by
  unfold Lexer.found
  rw [h.mode]
  cases hmode : lexer.mode with
  | code =>
      dsimp only
      rw [h.rest, h.gap, drop_stretch, hrest, Scan.code_crlf]
  | markup =>
      rw [Lexer.gap, hmode, List.drop_zero] at hrest
      dsimp only
      rw [h.rest, hrest, Scan.markupLength_crlf]
      cases hlength : Scan.markupLength (c :: cs) with
      | zero =>
          have htag := Scan.clear_of_opensCode (Scan.opensCode_of_markupLength hlength)
          simp only [Scan.Found.stretch, htag.stretch_eq, stretch_zero]
      | succ n =>
          have hpos := stretch_pos (Nat.succ_pos n) (List.cons_ne_nil c cs)
          obtain ⟨m, hm⟩ := Nat.exists_eq_succ_of_ne_zero (Nat.ne_of_gt hpos)
          rw [Scan.Found.stretch, hm]

theorem next? (h : lexer.Returned lexer') : Answers lexer.next? lexer'.next? := by
  have hrest' : lexer'.rest.drop lexer'.gap = crlf (lexer.rest.drop lexer.gap) := by
    rw [h.rest, h.gap, drop_stretch]
  have hskip := h.skip lexer.gap
  rw [← h.gap] at hskip
  cases hrest : lexer.rest.drop lexer.gap with
  | nil =>
      rw [hrest] at hrest'
      rw [Lexer.next?_of_nil hrest, Lexer.next?_of_nil hrest']
      exact .ended
  | cons c cs =>
      have hfound := h.found hrest
      obtain ⟨c', cs', hcons⟩ : ∃ c' cs', crlf (c :: cs) = c' :: cs' :=
        List.exists_cons_of_ne_nil (mt crlf_eq_nil.1 (List.cons_ne_nil c cs))
      rw [hrest, hcons] at hrest'
      rw [Lexer.next?_of_cons hrest, Lexer.next?_of_cons hrest', hfound]
      cases hscan : lexer.found with
      | token kind n =>
          have hhere : (lexer.skip lexer.gap).rest = c :: cs := hrest
          have hfirm : kind ≠ .markup → Firm n (lexer.skip lexer.gap).rest := fun hkind =>
            hhere ▸ Lexer.firm_found hrest hscan hkind
          have htake := hskip.take (Nat.pos_iff_ne_zero.1 (Lexer.found_pos hscan)) hfirm
            (lexer.mode.behind kind)
          dsimp only [Scan.Found.stretch]
          rw [h.mode, ← hhere]
          exact .taken htake.1 htake.2
      | unterminated closer =>
          dsimp only [Scan.Found.stretch]
          rw [hskip.position]
          exact .refused _
      | unexpected =>
          -- what is refused stands behind all space, so it is no line feed
          have hnot : ∀ kind n, lexer.found ≠ .token kind n := by simp [hscan]
          obtain ⟨hmode, -⟩ := Lexer.found_refused hnot
          have hc : c ≠ '\n' := by
            rintro rfl
            exact absurd (Lexer.gap_visible hmode hrest) (by decide)
          obtain ⟨rfl, -⟩ := List.cons.inj ((crlf_cons hc cs).symm.trans hcons)
          dsimp only [Scan.Found.stretch]
          rw [hskip.position]
          exact .refused _

-- By recursion on the text that is left: the lexers answer alike all the way.
theorem tokens {lexer lexer' : Lexer} (h : lexer.Returned lexer') :
    List.Forall₂ Token.Returned lexer.tokens.1 lexer'.tokens.1 ∧
      lexer'.tokens.2 = lexer.tokens.2 := by
  have hnext := h.next?
  generalize hanswer : lexer.next? = answer at hnext
  generalize hanswer' : lexer'.next? = answer' at hnext
  cases hnext with
  | ended =>
      rw [tokens_of_none hanswer, tokens_of_none hanswer']
      exact ⟨.nil, rfl⟩
  | refused e =>
      rw [tokens_of_error hanswer, tokens_of_error hanswer']
      exact ⟨.nil, rfl⟩
  | taken token behind =>
      have := next?_shorter hanswer
      obtain ⟨htokens, hending⟩ := behind.tokens
      rw [tokens_of_next? hanswer, tokens_of_next? hanswer']
      exact ⟨.cons token htokens, hending⟩
termination_by lexer.rest.length

end Returned

end Lexer

theorem tokenize_crlf {source : String} (h : '\r' ∉ source.toList) :
    List.Forall₂ Token.Returned (tokenize source).1 (tokenize (crlfText source)).1 ∧
      (tokenize (crlfText source)).2 = (tokenize source).2 := by
  have hreturned : Lexer.Returned (.ofSource source) (.ofSource (crlfText source)) :=
    ⟨rfl, rfl, by simp only [Lexer.ofSource, toList_crlfText], h⟩
  rw [tokenize_eq, tokenize_eq]
  exact hreturned.tokens

end Census
