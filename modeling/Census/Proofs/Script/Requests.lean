import Census.Proofs.Token.Stream
import Census.Script

namespace Census

-- What a parser may ask of its tokens: to show one of those ahead, or to hand over the next
-- one, which has to exist.
inductive Request where
  | look (n : Nat)
  | take
deriving DecidableEq, Repr

-- The token that was asked for, if there is one, or the error of a script that ends too early.
abbrev Reply := Except ParseError (Option Lexeme)

namespace Stream

-- The error of a parser that needs a token where none is left.
def endError (stream : Stream) : ParseError :=
  stream.error.elim (.endOfTokens stream.last) .ofLexError

def answer (stream : Stream) : Request → Reply × Stream
  | .look n => (.ok (stream.peek n).1, (stream.peek n).2)
  | .take => (stream.bump.1.elim (.error stream.bump.2.endError) fun lexeme => .ok (some lexeme),
      stream.bump.2)

-- The answers to one request after the other.
def answers : Stream → List Request → List Reply
  | _, [] => []
  | stream, request :: requests =>
      (stream.answer request).1 :: (stream.answer request).2.answers requests

end Stream

namespace Script

-- The answer of a script, all of whose tokens are known, when the first `taken` are gone.
def answer (script : Script) (taken : Nat) : Request → Reply × Nat
  | .look n => (.ok script.lexemes.toList[taken + n]?, taken)
  | .take =>
      match script.lexemes.toList[taken]? with
      | some lexeme => (.ok (some lexeme), taken + 1)
      | none => (.error script.endError, taken)

def answers (script : Script) : Nat → List Request → List Reply
  | _, [] => []
  | taken, request :: requests =>
      (script.answer taken request).1 :: script.answers (script.answer taken request).2 requests

-- The end of the last token that was taken.
def lastTaken (script : Script) (taken : Nat) : Position :=
  (script.lexemes.toList.take taken).getLast?.elim .first (·.token.span.stop)

theorem lastTaken_all {script : Script} {taken : Nat} (h : script.lexemes.size ≤ taken) :
    script.lastTaken taken = script.lastPosition := by
  rw [lastTaken, List.take_of_length_le h, Array.getLast?_toList]
  rfl

theorem lastTaken_succ {script : Script} {taken : Nat} {lexeme : Lexeme}
    (h : script.lexemes.toList[taken]? = some lexeme) :
    script.lastTaken (taken + 1) = lexeme.token.span.stop := by
  rw [lastTaken, List.take_add_one, h, Option.toList_some, List.getLast?_concat]
  rfl

end Script

namespace Stream

-- A stream from which the first `taken` tokens of a script have been taken.
structure Serves (stream : Stream) (script : Script) (taken : Nat) : Prop where
  remaining : stream.remaining = script.lexemes.toList.drop taken
  ending : stream.ending = script.ending
  last : stream.last = script.lastTaken taken

namespace Serves

variable {stream : Stream} {script : Script} {taken : Nat}

theorem ofSource (source : String) : (ofSource source).Serves (.ofSource source) 0 :=
  ⟨remaining_ofSource source, ending_ofSource source, rfl⟩

theorem continues {later : Stream} (h : stream.Serves script taken) (hlater : later.Continues stream) :
    later.Serves script taken :=
  ⟨hlater.remaining.trans h.remaining, hlater.ending.trans h.ending, hlater.last.trans h.last⟩

theorem look (h : stream.Serves script taken) (n : Nat) :
    (stream.peek n).1 = script.lexemes.toList[taken + n]? ∧
      (stream.peek n).2.Serves script taken := by
  refine ⟨?_, h.continues (stream.peek_continues n)⟩
  rw [stream.peek_eq, h.remaining, List.getElem?_drop]

theorem take (h : stream.Serves script taken) {lexeme : Lexeme}
    (hnext : script.lexemes.toList[taken]? = some lexeme) :
    stream.bump.1 = some lexeme ∧ stream.bump.2.Serves script (taken + 1) := by
  obtain ⟨hlt, hget⟩ := List.getElem?_eq_some_iff.1 hnext
  have hremaining : stream.remaining = lexeme :: script.lexemes.toList.drop (taken + 1) := by
    rw [h.remaining, List.drop_eq_getElem_cons hlt, hget]
  obtain ⟨hgiven, hrest, hending, hlast⟩ := bump_of_remaining hremaining
  exact ⟨hgiven, hrest, hending.trans h.ending, hlast.trans (Script.lastTaken_succ hnext).symm⟩

-- Where no token is left, the stream knows why the script ends there.
theorem take_at_end (h : stream.Serves script taken)
    (hnext : script.lexemes.toList[taken]? = none) :
    stream.bump.1 = none ∧ stream.bump.2.Serves script taken ∧
      stream.bump.2.endError = script.endError := by
  have hle := List.getElem?_eq_none_iff.1 hnext
  have hremaining : stream.remaining = [] := by
    rw [h.remaining, List.drop_eq_nil_of_le hle]
  obtain ⟨hnone, hlater, herror⟩ := bump_at_end hremaining
  refine ⟨hnone, h.continues hlater, ?_⟩
  rw [endError, herror, h.ending, (h.continues hlater).last, Script.lastTaken_all hle,
    Script.endError]
  cases script.ending <;> rfl

theorem answer (h : stream.Serves script taken) (request : Request) :
    (stream.answer request).1 = (script.answer taken request).1 ∧
      (stream.answer request).2.Serves script (script.answer taken request).2 := by
  cases request with
  | look n =>
      obtain ⟨hseen, hserves⟩ := h.look n
      exact ⟨congrArg Except.ok hseen, hserves⟩
  | take =>
      simp only [Stream.answer, Script.answer]
      cases hnext : script.lexemes.toList[taken]? with
      | some lexeme =>
          obtain ⟨hgiven, hserves⟩ := h.take hnext
          rw [hgiven]
          exact ⟨rfl, hserves⟩
      | none =>
          obtain ⟨hnone, hserves, herror⟩ := h.take_at_end hnext
          rw [hnone, herror]
          exact ⟨rfl, hserves⟩

theorem answers (h : stream.Serves script taken) (requests : List Request) :
    stream.answers requests = script.answers taken requests := by
  induction requests generalizing stream taken with
  | nil => rfl
  | cons request requests ih =>
      obtain ⟨hanswer, hserves⟩ := h.answer request
      rw [Stream.answers, Script.answers, hanswer, ih hserves]

end Serves

section Grammar

open Grammar

variable {stream : Stream} {script : Script} {taken : Nat}

theorem Serves.terminal_peek (h : stream.Serves script taken) (n : Nat) :
    (script.terminals.drop taken)[n]? = (stream.peek n).1.map fun lexeme =>
      ⟨lexeme.token.kind, Script.namesCast lexeme.token⟩ := by
  rw [List.getElem?_drop, Script.terminals, List.getElem?_map, (h.look n).1]

-- What the grammar sees ahead is what the stream shows.
theorem Serves.ahead (h : stream.Serves script taken) (n : Nat) :
    Parser.ahead n ⟨taken, script.terminals.drop taken⟩ =
        .ok ((stream.peek n).1.map (·.token.kind), ⟨taken, script.terminals.drop taken⟩) ∧
      Parser.castAhead n ⟨taken, script.terminals.drop taken⟩ =
        .ok ((stream.peek n).1.any fun lexeme => Script.namesCast lexeme.token,
          ⟨taken, script.terminals.drop taken⟩) := by
  constructor
  · rw [Parser.ahead, h.terminal_peek, Option.map_map]
    rfl
  · rw [Parser.castAhead, h.terminal_peek, Option.any_map]

-- What the grammar takes is what the stream hands over, and it ends where the stream does.
theorem Serves.next (h : stream.Serves script taken) :
    Parser.next ⟨taken, script.terminals.drop taken⟩ =
      stream.bump.1.elim (.error .atEnd) fun _ =>
        .ok (taken, ⟨taken + 1, script.terminals.drop (taken + 1)⟩) := by
  cases hnext : script.lexemes.toList[taken]? with
  | none =>
      have hdrop : script.terminals.drop taken = [] := by
        rw [List.drop_eq_nil_iff, Script.terminals, List.length_map]
        exact List.getElem?_eq_none_iff.1 hnext
      rw [(h.take_at_end hnext).1, hdrop]
      rfl
  | some lexeme =>
      have hterminal : script.terminals[taken]? =
          some ⟨lexeme.token.kind, Script.namesCast lexeme.token⟩ := by
        rw [Script.terminals, List.getElem?_map, hnext]
        rfl
      obtain ⟨hlt, -⟩ := List.getElem?_eq_some_iff.1 hterminal
      rw [(h.take hnext).1, List.drop_eq_getElem_cons hlt]
      rfl

end Grammar

-- However far a parser looks ahead in between, it is answered as if all tokens of the source
-- had been read and sorted out beforehand.
theorem answers_ofSource (source : String) (requests : List Request) :
    (ofSource source).answers requests = (Script.ofSource source).answers 0 requests :=
  (Serves.ofSource source).answers requests

end Stream

end Census
