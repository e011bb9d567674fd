import Census.Proofs.Token.Reading
import Census.Token.Stream
import Mathlib.Data.List.Basic

namespace Census

namespace Stream

-- What a stream still has to give: the tokens in its buffer, then those that nobody has looked at.
def remaining (stream : Stream) : List Lexeme :=
  stream.buffer ++
    if stream.exhausted then [] else Lexeme.ofTokensFrom stream.doc stream.lexer.tokens.1

-- The lexical error behind them, if any.
def ending (stream : Stream) : Option LexError :=
  if stream.exhausted then stream.error else stream.lexer.tokens.2.or stream.error

theorem remaining_ofSource (source : String) :
    (ofSource source).remaining = Lexeme.ofTokens (tokenize source).1 := by
  rw [tokenize_eq]
  rfl

theorem ending_ofSource (source : String) : (ofSource source).ending = (tokenize source).2 := by
  rw [tokenize_eq]
  exact Option.or_none

-- Whoever reads from the one stream on sees what the reader of the other one sees.
structure Continues (later earlier : Stream) : Prop where
  remaining : later.remaining = earlier.remaining
  ending : later.ending = earlier.ending
  last : later.last = earlier.last

namespace Continues

theorem refl (stream : Stream) : stream.Continues stream := ⟨rfl, rfl, rfl⟩

theorem trans {a b c : Stream} (h : a.Continues b) (h' : b.Continues c) : a.Continues c :=
  ⟨h.remaining.trans h'.remaining, h.ending.trans h'.ending, h.last.trans h'.last⟩

end Continues

-- Reading on moves tokens into the buffer and drops what means nothing. Neither changes what
-- the stream has to give.
theorem pull_continues (stream : Stream) : stream.pull.Continues stream := by
  fun_induction pull stream with
  | case1 stream exhausted => exact .refl _
  | case2 stream notDone hnext =>
      refine ⟨?_, ?_, rfl⟩
      · simp [remaining, notDone, Lexer.tokens_of_none hnext, Lexeme.ofTokensFrom]
      · simp [ending, notDone, Lexer.tokens_of_none hnext]
  | case3 stream notDone e hnext =>
      refine ⟨?_, ?_, rfl⟩
      · simp [remaining, notDone, Lexer.tokens_of_error hnext, Lexeme.ofTokensFrom]
      · simp [ending, notDone, Lexer.tokens_of_error hnext]
  | case4 stream notDone token next hnext _ significant =>
      refine ⟨?_, ?_, rfl⟩
      · simp [remaining, notDone, Lexer.tokens_of_next? hnext, Lexeme.ofTokensFrom, significant]
      · simp [ending, notDone, Lexer.tokens_of_next? hnext]
  | case5 stream notDone token next hnext _ plain doc ih =>
      refine ih.trans ⟨?_, ?_, rfl⟩
      · simp only [remaining, notDone, Lexer.tokens_of_next? hnext, Lexeme.ofTokensFrom, if_neg plain,
          if_pos doc]
      · simp [ending, notDone, Lexer.tokens_of_next? hnext]
  | case6 stream notDone token next hnext _ plain other ih =>
      refine ih.trans ⟨?_, ?_, rfl⟩
      · simp only [remaining, notDone, Lexer.tokens_of_next? hnext, Lexeme.ofTokensFrom, if_neg plain,
          if_neg other]
      · simp [ending, notDone, Lexer.tokens_of_next? hnext]

theorem pull_of_exhausted {stream : Stream} (h : stream.exhausted = true) :
    stream.pull = stream := by
  rw [pull, if_pos h]

-- One more token stands in the buffer then, unless the source has ended.
theorem pull_reaches (stream : Stream) : stream.pull.exhausted = true ∨
    stream.pull.buffer.length = stream.buffer.length + 1 := by
  fun_induction pull stream with
  | case1 stream exhausted => exact .inl exhausted
  | case2 stream notDone hnext => exact .inl rfl
  | case3 stream notDone e hnext => exact .inl rfl
  | case4 stream notDone token next hnext _ significant => exact .inr (by simp)
  | case5 stream notDone token next hnext _ plain doc ih => exact ih
  | case6 stream notDone token next hnext _ plain other ih => exact ih

theorem pulls_continue (times : List Nat) (stream : Stream) :
    (times.foldl (fun s _ => s.pull) stream).Continues stream := by
  induction times generalizing stream with
  | nil => exact .refl _
  | cons _ times ih => exact (ih stream.pull).trans stream.pull_continues

theorem pulls_reach (times : List Nat) (stream : Stream) :
    (times.foldl (fun s _ => s.pull) stream).exhausted = true ∨
      (times.foldl (fun s _ => s.pull) stream).buffer.length =
        stream.buffer.length + times.length := by
  induction times generalizing stream with
  | nil => exact .inr rfl
  | cons _ times ih =>
      rw [List.foldl_cons]
      rcases stream.pull_reaches with hended | hlonger
      · have hstays : times.foldl (fun s _ => s.pull) stream.pull = stream.pull :=
          List.foldl_fixed' (fun _ => pull_of_exhausted hended) times
        exact .inl (by rw [hstays, hended])
      · refine (ih stream.pull).imp_right fun h => ?_
        rw [h, hlonger, List.length_cons]
        omega

theorem fill_continues (stream : Stream) (n : Nat) : (stream.fill n).Continues stream :=
  pulls_continue _ stream

theorem fill_reaches (stream : Stream) (n : Nat) :
    (stream.fill n).exhausted = true ∨ n < (stream.fill n).buffer.length := by
  refine (pulls_reach (List.range (n + 1 - stream.buffer.length)) stream).imp_right fun h => ?_
  rw [fill, h, List.length_range]
  omega

-- What is buffered by then answers for all that is left.
theorem buffer_fill (stream : Stream) (n : Nat) :
    (stream.fill n).buffer[n]? = stream.remaining[n]? := by
  rw [← (stream.fill_continues n).remaining, remaining]
  rcases stream.fill_reaches n with hended | hlong
  · rw [if_pos hended, List.append_nil]
  · rw [List.getElem?_append_left hlong]

-- Looking ahead shows the token that will come up there, and changes nothing.
theorem peek_eq (stream : Stream) (n : Nat) : (stream.peek n).1 = stream.remaining[n]? :=
  stream.buffer_fill n

theorem peek_continues (stream : Stream) (n : Nat) : (stream.peek n).2.Continues stream :=
  stream.fill_continues n

section Bump

variable {stream : Stream}

theorem bump_of_nil (h : (stream.fill 0).buffer = []) : stream.bump = (none, stream.fill 0) := by
  rw [bump]
  simp only [h]

theorem bump_of_cons {lexeme : Lexeme} {rest : List Lexeme}
    (h : (stream.fill 0).buffer = lexeme :: rest) : stream.bump =
      (some lexeme, { stream.fill 0 with buffer := rest, last := lexeme.token.span.stop }) := by
  rw [bump]
  simp only [h]

-- Taking at the end of the source gives nothing, and what is known of the end stays known.
theorem bump_at_end (h : stream.remaining = []) : stream.bump.1 = none ∧
    stream.bump.2.Continues stream ∧ stream.bump.2.error = stream.ending := by
  have hkeeps := stream.fill_continues 0
  have hbuffer : (stream.fill 0).buffer = [] := by
    have hnone := stream.buffer_fill 0
    rw [h] at hnone
    exact List.head?_eq_none_iff.1 (List.head?_eq_getElem?.trans hnone)
  have hended : (stream.fill 0).exhausted = true := by
    rcases stream.fill_reaches 0 with hended | hlong
    · exact hended
    · simp [hbuffer] at hlong
  rw [bump_of_nil hbuffer]
  refine ⟨rfl, hkeeps, ?_⟩
  rw [← hkeeps.ending, ending, if_pos hended]

-- Taking gives the token in front and leaves those behind it.
theorem bump_of_remaining {lexeme : Lexeme} {rest : List Lexeme}
    (h : stream.remaining = lexeme :: rest) : stream.bump.1 = some lexeme ∧
      stream.bump.2.remaining = rest ∧ stream.bump.2.ending = stream.ending ∧
      stream.bump.2.last = lexeme.token.span.stop := by
  have hkeeps := stream.fill_continues 0
  have hhead := stream.buffer_fill 0
  rw [h] at hhead
  cases hbuffer : (stream.fill 0).buffer with
  | nil =>
      rw [hbuffer] at hhead
      cases hhead
  | cons first behind =>
      rw [hbuffer] at hhead
      obtain rfl : first = lexeme := Option.some.inj hhead
      have hremaining := hkeeps.remaining.trans h
      rw [remaining, hbuffer, List.cons_append] at hremaining
      rw [bump_of_cons hbuffer]
      exact ⟨rfl, List.tail_eq_of_cons_eq hremaining, hkeeps.ending, rfl⟩

end Bump

end Stream

end Census
