import Census.Proofs.Script.Requests
import Census.Proofs.Token.Documentation

namespace Census

-- The significant tokens among some tokens, each with the last doc comment that stands between the
-- significant token before it and itself.
structure Lexeme.Listed (tokens : List Token) (lexemes : List Lexeme) : Prop where
  significant : lexemes.map (·.token) = tokens.filter (·.kind.isSignificant)
  documented (k : Nat) (lexeme : Lexeme) : lexemes[k]? = some lexeme → ∃ front after,
    tokens = front ++ lexeme.token :: after ∧ (front.filter (·.kind.isSignificant)).length = k ∧
      lexeme.doc = (Token.waitingDoc? front.reverse).map (·.text)

theorem Lexeme.listed_ofTokens (tokens : List Token) : Listed tokens (ofTokens tokens) := by
  refine ⟨ofTokensFrom_tokens none tokens, fun k lexeme h => ?_⟩
  -- nothing waits in front of the first token
  change (ofTokensFrom ((Token.waitingDoc? []).map (·.text)) tokens)[k]? = some lexeme at h
  obtain ⟨front, after, htokens, hlength, hdoc⟩ := of_getElem? h
  exact ⟨front, after, htokens, hlength, by rw [hdoc, List.append_nil]⟩

namespace Stream

-- The stream behind some requests.
def after (stream : Stream) (requests : List Request) : Stream :=
  requests.foldl (fun stream request => (stream.answer request).2) stream

-- Only a token that is handed over counts.
def advance (stream : Stream) : Request → Nat
  | .look _ => 0
  | .take => if stream.bump.1.isSome then 1 else 0

-- The number of tokens that some requests take.
def taken : Stream → List Request → Nat
  | _, [] => 0
  | stream, request :: requests =>
      stream.advance request + (stream.answer request).2.taken requests

-- All that may be asked of a stream is answered by a list of all its tokens and the number of
-- those that are gone.
structure Shows (stream : Stream) (lexemes : List Lexeme) (ending : Option LexError)
    (taken : Nat) : Prop where
  peek (n : Nat) : (stream.peek n).1 = lexemes[taken + n]?
  bump : stream.bump.1 = lexemes[taken]?
  last : taken = 0 ∧ stream.last = .first ∨ ∃ k lexeme, taken = k + 1 ∧
    lexemes[k]? = some lexeme ∧ stream.last = lexeme.token.span.stop
  -- whoever has seen the end knows its cause from then on
  endError : (stream.peek 0).1 = none → ∀ later, ((stream.peek 0).2.after later).endError =
    ending.elim (.endOfTokens stream.last) .ofLexError

section Exhausted

variable {stream : Stream}

theorem fill_of_exhausted (h : stream.exhausted = true) (n : Nat) : stream.fill n = stream :=
  List.foldl_fixed' (fun _ => pull_of_exhausted h) _

-- A stream that has read all of its source has done so for good.
theorem exhausted_answer (h : stream.exhausted = true) (request : Request) :
    (stream.answer request).2.exhausted = true := by
  cases request with
  | look n => simpa only [answer, Stream.peek, fill_of_exhausted h n] using h
  | take =>
      simp only [answer, Stream.bump, fill_of_exhausted h 0]
      split <;> exact h

theorem exhausted_after (h : stream.exhausted = true) (requests : List Request) :
    (stream.after requests).exhausted = true := by
  induction requests generalizing stream with
  | nil => exact h
  | cons request requests ih => exact ih (exhausted_answer h request)

-- Where nothing is ahead, all of the source has been read to see that.
theorem exhausted_peek (h : (stream.peek 0).1 = none) : (stream.peek 0).2.exhausted = true := by
  rcases stream.fill_reaches 0 with hended | hlong
  · exact hended
  · exact absurd h (by simp [Stream.peek, List.getElem?_eq_getElem hlong])

end Exhausted

namespace Serves

variable {stream : Stream} {script : Script} {taken : Nat}

theorem bump_eq (h : stream.Serves script taken) :
    stream.bump.1 = script.lexemes.toList[taken]? := by
  cases hnext : script.lexemes.toList[taken]? with
  | none => exact (h.take_at_end hnext).1
  | some lexeme => exact (h.take hnext).1

-- One request: the stream counts the tokens that it hands over.
theorem advance (h : stream.Serves script taken) (hle : taken ≤ script.lexemes.toList.length)
    (request : Request) :
    (stream.answer request).2.Serves script (taken + stream.advance request) ∧
      taken + stream.advance request ≤ script.lexemes.toList.length := by
  cases request with
  | look n => exact ⟨(h.look n).2, hle⟩
  | take =>
      cases hnext : script.lexemes.toList[taken]? with
      | none =>
          obtain ⟨hnone, hserves, -⟩ := h.take_at_end hnext
          rw [Stream.advance, hnone]
          exact ⟨hserves, hle⟩
      | some lexeme =>
          obtain ⟨hgiven, hserves⟩ := h.take hnext
          obtain ⟨hlt, -⟩ := List.getElem?_eq_some_iff.1 hnext
          rw [Stream.advance, hgiven]
          exact ⟨hserves, hlt⟩

-- Any number of requests, by induction on them.
theorem after (h : stream.Serves script taken) (hle : taken ≤ script.lexemes.toList.length)
    (requests : List Request) :
    (stream.after requests).Serves script (taken + stream.taken requests) ∧
      taken + stream.taken requests ≤ script.lexemes.toList.length := by
  induction requests generalizing stream taken with
  | nil => exact ⟨h, hle⟩
  | cons request requests ih =>
      obtain ⟨hserves, hbound⟩ := h.advance hle request
      have hrest := ih hserves hbound
      rw [Nat.add_assoc] at hrest
      exact hrest

theorem endError (h : stream.Serves script taken) (hended : stream.exhausted = true) :
    stream.endError = script.ending.elim (.endOfTokens stream.last) .ofLexError := by
  have herror : stream.error = script.ending := by
    rw [← h.ending, Stream.ending, if_pos hended]
  rw [Stream.endError, herror]

theorem shows (h : stream.Serves script taken) (hle : taken ≤ script.lexemes.toList.length) :
    stream.Shows script.lexemes.toList script.ending taken where
  peek n := (h.look n).1
  bump := h.bump_eq
  last := by
    rw [h.last]
    cases taken with
    | zero => exact .inl ⟨rfl, rfl⟩
    | succ k =>
        have hk := List.getElem?_eq_getElem (Nat.lt_of_succ_le hle)
        exact .inr ⟨k, _, rfl, hk, Script.lastTaken_succ hk⟩
  endError hnone later := by
    have hnext : script.lexemes.toList[taken]? = none := (h.look 0).1.symm.trans hnone
    have hend := List.getElem?_eq_none_iff.1 hnext
    obtain ⟨hserves, -⟩ := (h.look 0).2.after hle later
    rw [hserves.endError (exhausted_after (exhausted_peek hnone) later), hserves.last, h.last,
      Script.lastTaken_all hend, Script.lastTaken_all (Nat.le_add_right_of_le hend)]

end Serves

end Stream

-- Whatever was asked of the stream before, it answers as the list of all significant tokens does
-- from the first one on that has not been taken. What was only looked at makes no difference.
theorem Stream.shows_after (source : String) : ∃ lexemes,
    Lexeme.Listed (tokenize source).1 lexemes ∧
      (∀ requests, ((ofSource source).after requests).Shows lexemes (tokenize source).2
        ((ofSource source).taken requests)) ∧
      ∀ requests requests' later,
        (ofSource source).taken requests = (ofSource source).taken requests' →
          ((ofSource source).after requests).answers later =
            ((ofSource source).after requests').answers later := by
  have hafter := (Serves.ofSource source).after (Nat.zero_le _)
  simp only [Nat.zero_add] at hafter
  refine ⟨(Script.ofSource source).lexemes.toList, Lexeme.listed_ofTokens _, fun requests => ?_,
    fun requests requests' later htaken => ?_⟩
  · exact (hafter requests).1.shows (hafter requests).2
  · rw [(hafter requests).1.answers, (hafter requests').1.answers, htaken]

end Census
