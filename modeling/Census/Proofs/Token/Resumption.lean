import Census.Proofs.Token.Returned
import Census.Proofs.Token.Written

namespace Census

open Text

-- What stands behind several tokens.
def Mode.behindAll (mode : Mode) (tokens : List Token) : Mode :=
  tokens.foldl (fun mode t => mode.behind t.kind) mode

namespace Lexer

variable {lexer next : Lexer} {cs before gap : List Char} {t : Token}

-- A lexer reads a token behind a gap, which is empty outside of code, and goes on behind it.
structure Reads (lexer : Lexer) (gap : List Char) (t : Token) (next : Lexer) : Prop where
  rest : lexer.rest = gap ++ (t.text.toList ++ next.rest)
  space : gap.all Scan.isSpace = true
  bare : lexer.mode = .markup → gap = []
  visible : lexer.mode = .code → Scan.headIs Scan.isSpace t.text.toList = false
  gap_eq : lexer.gap = gap.length
  found : lexer.found = .token t.kind t.text.toList.length
  mode : next.mode = lexer.mode.behind t.kind
  stands : ∀ cs before, lexer.At cs before →
    t.StandsBehind cs (before ++ gap) ∧ next.At cs (before ++ gap ++ t.text.toList)

theorem reads_take {c : Char} {rest : List Char} {kind : TokenKind} {n : Nat}
    (hrest : lexer.rest.drop lexer.gap = c :: rest) (hfound : lexer.found = .token kind n) :
    lexer.Reads (lexer.rest.take lexer.gap)
      ((lexer.skip lexer.gap).take kind n (lexer.mode.behind kind)).1
      ((lexer.skip lexer.gap).take kind n (lexer.mode.behind kind)).2 := by
  have hhere : (lexer.skip lexer.gap).rest = c :: rest := hrest
  have hn := Nat.pos_iff_ne_zero.1 (found_pos hfound)
  have hle := (parted_found hrest hfound).1
  have htext := (lexer.skip lexer.gap).take_text kind n (lexer.mode.behind kind)
  have hlength := congrArg List.length htext
  rw [← hhere] at hle
  rw [List.length_take, Nat.min_eq_left hle] at hlength
  refine ⟨?_, lexer.gap_space, gap_bare, fun hmode => ?_, ?_, ?_, rfl, fun cs before hat => ?_⟩
  · rw [htext]
    exact ((congrArg (_ ++ ·) (List.take_append_drop n _)).trans
      (List.take_append_drop lexer.gap lexer.rest)).symm
  · obtain ⟨m, rfl⟩ := Nat.exists_eq_succ_of_ne_zero hn
    rw [htext, hhere]
    exact gap_visible hmode hrest
  · rw [List.length_take, Nat.min_eq_left lexer.gap_le]
  · rw [hlength]
    exact hfound
  · have hstands := hat.skip lexer.gap_le
    have hbehind := hstands.skip hle
    rw [← htext] at hbehind
    exact ⟨hstands.take hn hle kind _, hbehind.split, hbehind.offset, hbehind.position⟩

theorem next?_reads (h : lexer.next? = some (.ok (t, next))) : ∃ gap, lexer.Reads gap t next := by
  cases hrest : lexer.rest.drop lexer.gap with
  | nil =>
      rw [next?_of_nil hrest] at h
      cases h
  | cons c rest =>
      rw [next?_of_cons hrest] at h
      cases hfound : lexer.found with
      | token kind n =>
          rw [hfound] at h
          have htake := Except.ok.inj (Option.some.inj h)
          have hreads := reads_take hrest hfound
          rw [htake] at hreads
          exact ⟨_, hreads⟩
      | unterminated closer =>
          rw [hfound] at h
          cases h
      | unexpected =>
          rw [hfound] at h
          cases h

-- In code, the token is what is found in front of the rest.
theorem Reads.code (h : lexer.Reads gap t next) (hmode : lexer.mode = .code) :
    Scan.code (t.text.toList ++ next.rest) = .token t.kind t.text.toList.length := by
  have hfound := h.found
  rw [Lexer.found, hmode, h.gap_eq, h.rest] at hfound
  dsimp only at hfound
  rwa [List.drop_left] at hfound

theorem next?_eq_none : lexer.next? = none ↔ lexer.rest.drop lexer.gap = [] := by
  refine ⟨fun h => ?_, next?_of_nil⟩
  cases hrest : lexer.rest.drop lexer.gap with
  | nil => rfl
  | cons c rest =>
      rw [next?_of_cons hrest] at h
      split at h <;> cases h

theorem next?_of_tokens {later : List Token} (h : lexer.tokens.1 = t :: later) :
    ∃ next, lexer.next? = some (.ok (t, next)) ∧ later = next.tokens.1 ∧
      lexer.tokens.2 = next.tokens.2 := by
  cases hnext : lexer.next? with
  | none =>
      rw [tokens_of_none hnext] at h
      cases h
  | some read =>
      cases read with
      | error e =>
          rw [tokens_of_error hnext] at h
          cases h
      | ok step =>
          obtain ⟨u, next⟩ := step
          rw [tokens_of_next? hnext] at h ⊢
          obtain ⟨rfl, rfl⟩ := List.cons.inj h
          exact ⟨next, rfl, rfl, rfl⟩

-- Lexers that read alike: where one finds a token, so does the other one, with the same kind and
-- text, and they read alike behind it.
structure Alike (R : Lexer → Lexer → Prop) : Prop where
  ended : ∀ {lexer lexer'}, R lexer lexer' → lexer.next? = none → lexer'.next? = none
  refused : ∀ {lexer lexer' e}, R lexer lexer' → lexer.next? = some (.error e) →
    ∃ e', lexer'.next? = some (.error e')
  read : ∀ {lexer lexer' t next}, R lexer lexer' → lexer.next? = some (.ok (t, next)) →
    ∃ t' next', lexer'.next? = some (.ok (t', next')) ∧ t'.face = t.face ∧ R next next'

-- By recursion on the text that is left: they read the same tokens all the way.
theorem Alike.tokens {R : Lexer → Lexer → Prop} (h : Alike R) {lexer lexer' : Lexer}
    (hr : R lexer lexer') : lexer'.tokens.1.map Token.face = lexer.tokens.1.map Token.face ∧
      lexer'.tokens.2.isSome = lexer.tokens.2.isSome := by
  cases hnext : lexer.next? with
  | none =>
      rw [tokens_of_none hnext, tokens_of_none (h.ended hr hnext)]
      exact ⟨rfl, rfl⟩
  | some answer =>
      cases answer with
      | error e =>
          obtain ⟨e', hnext'⟩ := h.refused hr hnext
          rw [tokens_of_error hnext, tokens_of_error hnext']
          exact ⟨rfl, rfl⟩
      | ok step =>
          obtain ⟨t, next⟩ := step
          obtain ⟨t', next', hnext', hface, hr'⟩ := h.read hr hnext
          have := next?_shorter hnext
          obtain ⟨hfaces, hending⟩ := h.tokens hr'
          rw [tokens_of_next? hnext, tokens_of_next? hnext', List.map_cons, List.map_cons, hface, hfaces]
          exact ⟨rfl, hending⟩
termination_by lexer.rest.length

-- Tokens are read one after another: behind some of them, a lexer reads the others.
theorem tokens_append {passed later : List Token} (hat : lexer.At cs before)
    (h : lexer.tokens.1 = passed ++ later) : ∃ (next : Lexer) (read : List Char),
      next.At cs (before ++ read) ∧ next.mode = lexer.mode.behindAll passed ∧
      next.tokens = (later, lexer.tokens.2) ∧
      (passed.getLast?.elim (read = []) fun t =>
        t.stop = Token.offset (utf8Size (before ++ read))) := by
  induction passed generalizing lexer before with
  | nil => exact ⟨lexer, [], by simpa using hat, rfl, Prod.ext h rfl, rfl⟩
  | cons t passed ih =>
      obtain ⟨next, hnext, hrest, hending⟩ := next?_of_tokens h
      obtain ⟨gap, hreads⟩ := next?_reads hnext
      obtain ⟨hstands, hbehind⟩ := hreads.stands cs before hat
      obtain ⟨last, read, hlast, hmode, htokens, hstop⟩ := ih hbehind hrest.symm
      refine ⟨last, gap ++ (t.text.toList ++ read), by simpa using hlast, ?_, ?_, ?_⟩
      · rw [hmode, hreads.mode]
        rfl
      · rw [htokens, hending]
      · cases passed with
        | nil =>
            obtain rfl : read = [] := hstop
            simpa using hstands.stop
        | cons u passed =>
            rw [List.getLast?_cons_cons]
            cases hget : (u :: passed).getLast? with
            | none => simp at hget
            | some v =>
                rw [hget] at hstop
                simpa using hstop

end Lexer

-- The tokens of a source from any of them on.
theorem tokenize_append {source : String} {passed later : List Token}
    (h : (tokenize source).1 = passed ++ later) : ∃ (lexer : Lexer) (read : List Char),
      lexer.At source.toList read ∧ lexer.mode = Mode.markup.behindAll passed ∧
      lexer.tokens = (later, (tokenize source).2) ∧
      (passed.getLast?.elim (read = []) fun t => t.stop = Token.offset (utf8Size read)) := by
  rw [tokenize_eq] at h ⊢
  exact Lexer.tokens_append (Lexer.at_ofSource source) h

end Census
