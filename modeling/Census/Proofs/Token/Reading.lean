import Census.Proofs.Token.Boundary

namespace Census

open Text

namespace Lexer

variable {lexer : Lexer} {n : Nat}

-- The place that a lexer has come to.
def place (lexer : Lexer) : Cursor := ⟨lexer.offset, lexer.position, lexer.rest⟩

-- A cursor that moves on over a slice comes to where a lexer comes that sees all of the text.
theorem moveTo_place (lexer : Lexer) (h : Parted n lexer.rest) :
    lexer.place.moveTo (lexer.offset + utf8Size (lexer.rest.take n)) = (lexer.skip n).place :=
  (Cursor.moveTo_eq lexer.place (n := n) rfl).trans
    (congrArg (fun p => Cursor.mk _ p _) (Position.advance_take _ h))

theorem slice_place (lexer : Lexer) (n : Nat) :
    lexer.place.slice (lexer.offset + utf8Size (lexer.rest.take n)) = lexer.rest.take n :=
  Cursor.slice_eq lexer.place (n := n) rfl

theorem lastBefore?_place (hn : n ≠ 0) (hle : n ≤ lexer.rest.length) :
    lexer.place.lastBefore? (lexer.offset + utf8Size (lexer.rest.take n)) =
      some (lexer.position.advance (n - 1) lexer.rest) := by
  have hne : (lexer.rest.take n).isEmpty = false := by
    rw [List.isEmpty_eq_false_iff, ne_eq, ← List.length_eq_zero_iff, List.length_take]
    omega
  rw [Cursor.lastBefore?]
  simp only [slice_place, hne, List.length_take, Nat.min_eq_left hle, Bool.false_eq_true, if_false]
  exact congrArg some (Position.advance_take_of_lt _ (by omega) _)

end Lexer

namespace Tokenizer

variable {t : Tokenizer}

theorem moveTo_start_eq (t : Tokenizer) :
    t.cursor.moveTo t.start = (t.reading.skip t.reading.gap).place :=
  Lexer.moveTo_place t.reading (Lexer.parted_gap _)

-- The tokenizer makes the token that the lexer takes, and both go on from the same place.
theorem yield_eq {c : Char} {cs : List Char} {kind : TokenKind} {n : Nat} {stage : Stage}
    (hrest : t.cursor.rest.drop t.reading.gap = c :: cs)
    (hfound : t.reading.found = .token kind n) :
    let answer := t.yield kind t.start (t.start + utf8Size ((c :: cs).take n)) stage
    let taken := (t.reading.skip t.reading.gap).take kind n stage.mode
    answer.1 = some (.ok taken.1) ∧ answer.2.reading = taken.2 := by
  obtain ⟨hle, hparted⟩ := Lexer.parted_found hrest hfound
  have hn := Nat.pos_iff_ne_zero.1 (Lexer.found_pos hfound)
  have hfirst := t.moveTo_start_eq
  rw [show t.start = (t.reading.skip t.reading.gap).offset from rfl] at hfirst ⊢
  rw [← show (t.reading.skip t.reading.gap).rest = c :: cs from hrest] at hle hparted ⊢
  generalize t.reading.skip t.reading.gap = here at hfirst hle hparted ⊢
  simp only [yield, reading, hfirst, Lexer.slice_place, Lexer.lastBefore?_place hn hle,
    Lexer.moveTo_place here hparted, Option.getD_some]
  exact ⟨rfl, rfl⟩

theorem refuse_eq (t : Tokenizer) (error : Cursor → LexError) :
    (t.refuse t.start error).1 = some (.error (error (t.reading.skip t.reading.gap).place)) := by
  rw [refuse, moveTo_start_eq]

namespace Agrees

-- The tokenizer answers what the lexer finds.
theorem next?_reading (h : t.Agrees) :
    t.reading.next? = t.next.1.map fun answer => answer.map fun token => (token, t.next.2.reading) := by
  cases h.matched with
  | ended rest next =>
      rw [next, Lexer.next?_of_nil rest]
      rfl
  | taken stage rest found next mode fits =>
      obtain ⟨htoken, hreading⟩ := yield_eq rest found
      rw [Lexer.next?_of_cons rest, found, next, htoken, hreading, mode]
      rfl
  | unterminated rest found next =>
      rw [Lexer.next?_of_cons rest, found, next, refuse_eq]
      rfl
  | unexpected rest found next =>
      have hhead : (t.reading.skip t.reading.gap).place.rest = _ := rest
      rw [Lexer.next?_of_cons rest, found, next, refuse_eq]
      simp only [hhead, List.head?_cons, Option.getD_some]
      rfl

theorem answer_of_finished (hstage : t.stage = .finished) (n : Nat) : t.answer n = none := by
  have hnext : t.next = (none, t) := by rw [Tokenizer.next, hstage]
  induction n with
  | zero => rw [answer, hnext]
  | succ n ih => rw [answer, hnext, ih]

-- Nothing follows the end or an error.
theorem stage_of_next (h : t.Agrees) (hnext : ∀ token, t.next.1 ≠ some (.ok token)) :
    t.next.2.stage = .finished := by
  cases h.matched with
  | ended rest next => rw [next]
  | taken stage rest found next mode fits => exact absurd (by rw [next]; rfl) (hnext _)
  | unterminated rest found next => rw [next]; rfl
  | unexpected rest found next => rw [next]; rfl

-- Asked again and again, the tokenizer answers with one token after the other, then with the
-- error if there is one, and with nothing ever after.
theorem answer_eq {t : Tokenizer} (h : t.Agrees) (n : Nat) :
    t.answer n = ((t.tokens h).1.map .ok ++ (t.tokens h).2.toList.map .error)[n]? := by
  induction n generalizing t with
  | zero =>
      rw [answer, tokens]
      split <;>
      · rename_i hnext
        exact congrArg Prod.fst hnext
  | succ n ih =>
      rw [answer, tokens]
      split
      · rename_i hnext
        rw [answer_of_finished (h.stage_of_next (by simp [hnext]))]
        rfl
      · rename_i hnext
        rw [answer_of_finished (h.stage_of_next (by simp [hnext]))]
        rfl
      · rename_i hnext
        exact (congrArg (·.2.answer n) hnext).trans (ih (h.next hnext).1)

-- Reading the tokens one by one gives all tokens of the lexer.
theorem tokens_eq {t : Tokenizer} (h : t.Agrees) : t.tokens h = t.reading.tokens := by
  have hreading := h.next?_reading
  rw [tokens]
  split
  · rename_i hnext
    rw [hnext] at hreading
    rw [Lexer.tokens_of_none hreading]
  · rename_i hnext
    rw [hnext] at hreading
    rw [Lexer.tokens_of_error hreading]
  · rename_i token behind hnext
    rw [hnext] at hreading
    have := (h.next hnext).2
    rw [Lexer.tokens_of_next? hreading, tokens_eq (h.next hnext).1]
termination_by t.cursor.rest.length

end Agrees

end Tokenizer

theorem tokenize_eq (source : String) : tokenize source = (Lexer.ofSource source).tokens :=
  (Tokenizer.agrees_ofSource source).tokens_eq

end Census
