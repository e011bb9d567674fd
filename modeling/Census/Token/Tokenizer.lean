import Census.Text.Cursor
import Census.Token.Lexer

namespace Census

-- A block of code under way. Its last token reaches from byte `start` of the block to byte
-- `stop`, and `rest` is the text behind that token.
structure CodeBlock where
  start : Nat
  stop : Nat
  rest : List Char
deriving Repr

namespace CodeBlock

def ofText (text : List Char) : CodeBlock := ⟨0, 0, text⟩

-- What stands behind the space that comes next, if anything does.
def next (block : CodeBlock) : Option Scan.Found × CodeBlock :=
  let gap := Text.run Scan.isSpace block.rest
  let start := block.stop + Text.utf8Size (block.rest.take gap)
  let text := block.rest.drop gap
  if text.isEmpty then (none, ⟨start, start, text⟩)
  else
    match Scan.code text with
    | .token kind n =>
        (some (.token kind n), ⟨start, start + Text.utf8Size (text.take n), text.drop n⟩)
    | found => (some found, ⟨start, start, text⟩)

end CodeBlock

-- What is being read: text outside of code, a block of code that begins with byte `base` of the
-- source, or nothing any more.
inductive Tokenizer.Stage where
  | markup
  | code (base : Nat) (block : CodeBlock)
  | finished
deriving Repr

namespace Tokenizer.Stage

def mode : Stage → Mode
  | .code _ _ => .code
  | .markup | .finished => .markup

-- Whether the stage is at byte `offset` of the source, in front of the text `rest`.
def Fits : Stage → (offset : Nat) → (rest : List Char) → Prop
  | .markup, _, _ => True
  | .code base block, offset, rest => base + block.stop = offset ∧ block.rest = rest
  | .finished, _, rest => rest = []

end Tokenizer.Stage

-- Reads the tokens of a source of `size` bytes one by one. The cursor stands behind the last of
-- them; a block of code is read on its own and counts its bytes from its beginning.
structure Tokenizer where
  size : Nat
  cursor : Cursor
  stage : Tokenizer.Stage
deriving Repr

namespace Tokenizer

def ofSource (source : String) : Tokenizer :=
  ⟨Text.utf8Size source.toList, .ofText source.toList, .markup⟩

-- The text from byte `start` to byte `stop` as one token, and the tokenizer behind it.
def yield (t : Tokenizer) (kind : TokenKind) (start stop : Nat) (stage : Stage) :
    Option (Except LexError Token) × Tokenizer :=
  let first := t.cursor.moveTo start
  (some (.ok {
    kind
    text := String.ofList (first.slice stop)
    start := Token.offset start
    stop := Token.offset stop
    span := ⟨first.position, (first.lastBefore? stop).getD first.position⟩ }),
  { t with cursor := first.moveTo stop, stage })

-- Gives up at byte `start`.
def refuse (t : Tokenizer) (start : Nat) (error : Cursor → LexError) :
    Option (Except LexError Token) × Tokenizer :=
  let here := t.cursor.moveTo start
  (some (.error (error here)), { t with cursor := here, stage := .finished })

-- Markup reaches to the next tag that opens code, or to the end of the source.
def nextMarkup (t : Tokenizer) : Option (Except LexError Token) × Tokenizer :=
  let start := t.cursor.offset
  let rest := t.cursor.rest
  if rest.isEmpty then (none, { t with stage := .finished })
  else
    match Text.seek Scan.opensCode rest with
    | none => t.yield .markup start t.size .finished
    | some 0 => t.yield .openTag start (start + 5) (.code (start + 5) (.ofText (rest.drop 5)))
    | some (n + 1) => t.yield .markup start (start + Text.utf8Size (rest.take (n + 1))) .markup

def nextCode (t : Tokenizer) (base : Nat) (block : CodeBlock) :
    Option (Except LexError Token) × Tokenizer :=
  let (found, block) := block.next
  let start := base + block.start
  match found with
  | none => (none, { t with stage := .finished })
  | some (.token kind _) =>
      t.yield kind start (base + block.stop)
        (if kind = .closeTag then .markup else .code base block)
  | some (.unterminated closer) =>
      t.refuse start fun here => .unterminated here.position closer
  | some .unexpected =>
      t.refuse start fun here =>
        .unexpectedCharacter here.position (here.rest.head?.getD '\x00')

-- The next token, the error that stands in its place, or nothing at the end of the source and
-- ever after it.
def next (t : Tokenizer) : Option (Except LexError Token) × Tokenizer :=
  match t.stage with
  | .markup => t.nextMarkup
  | .code base block => t.nextCode base block
  | .finished => (none, t)

-- The reading point that the tokenizer stands for.
def reading (t : Tokenizer) : Lexer :=
  ⟨t.stage.mode, t.cursor.offset, t.cursor.position, t.cursor.rest⟩

-- The places agree while tokens are found: what the cursor has passed and what it has not make
-- up the source, and the stage is at the cursor.
structure Agrees (t : Tokenizer) : Prop where
  size : t.size = t.cursor.offset + Text.utf8Size t.cursor.rest
  stage : t.stage.Fits t.cursor.offset t.cursor.rest

theorem agrees_ofSource (source : String) : (ofSource source).Agrees :=
  ⟨(Nat.zero_add _).symm, trivial⟩

-- The byte at which the next token starts.
def start (t : Tokenizer) : Nat :=
  t.cursor.offset + Text.utf8Size (t.cursor.rest.take t.reading.gap)

theorem moveTo_start (t : Tokenizer) : t.cursor.moveTo t.start =
    ⟨t.start, t.cursor.position.advance t.reading.gap (t.cursor.rest.take t.reading.gap),
      t.cursor.rest.drop t.reading.gap⟩ :=
  Cursor.moveTo_eq _ rfl

-- Behind the next token, if that has `n` characters.
theorem moveTo_stop (t : Tokenizer) {text : List Char}
    (h : t.cursor.rest.drop t.reading.gap = text) (n : Nat) :
    (t.cursor.moveTo t.start).moveTo (t.start + Text.utf8Size (text.take n)) =
      ⟨t.start + Text.utf8Size (text.take n),
        (t.cursor.moveTo t.start).position.advance n (text.take n), text.drop n⟩ := by
  have hrest : (t.cursor.moveTo t.start).rest = text := by rw [moveTo_start, h]
  rw [← hrest]
  exact Cursor.moveTo_eq _ rfl

-- An answer of the tokenizer beside what the lexer finds at its reading point.
inductive Matched (t : Tokenizer) : Prop
  | ended (rest : t.cursor.rest.drop t.reading.gap = [])
      (next : t.next = (none, { t with stage := .finished }))
  | taken (stage : Stage) {c : Char} {cs : List Char} {kind : TokenKind} {n : Nat}
      (rest : t.cursor.rest.drop t.reading.gap = c :: cs)
      (found : t.reading.found = .token kind n)
      (next : t.next = t.yield kind t.start (t.start + Text.utf8Size ((c :: cs).take n)) stage)
      (mode : stage.mode = t.reading.mode.behind kind)
      (fits : stage.Fits (t.start + Text.utf8Size ((c :: cs).take n)) ((c :: cs).drop n))
  | unterminated {c : Char} {cs : List Char} {closer : Closer}
      (rest : t.cursor.rest.drop t.reading.gap = c :: cs)
      (found : t.reading.found = .unterminated closer)
      (next : t.next = t.refuse t.start fun here => .unterminated here.position closer)
  | unexpected {c : Char} {cs : List Char}
      (rest : t.cursor.rest.drop t.reading.gap = c :: cs)
      (found : t.reading.found = .unexpected)
      (next : t.next = t.refuse t.start fun here =>
        .unexpectedCharacter here.position (here.rest.head?.getD '\x00'))

namespace Agrees

variable {t : Tokenizer}

theorem matched_markup (h : t.Agrees) (hstage : t.stage = .markup) : t.Matched := by
  have hmode : t.reading.mode = .markup := by rw [reading, hstage]; rfl
  have hgap : t.reading.gap = 0 := by rw [Lexer.gap, hmode]
  have hstart : t.start = t.cursor.offset := by rw [start, hgap]; rfl
  have hdrop : t.cursor.rest.drop t.reading.gap = t.cursor.rest := by rw [hgap, List.drop_zero]
  cases hrest : t.cursor.rest with
  | nil => exact .ended (hdrop.trans hrest) (by simp [next, hstage, nextMarkup, hrest])
  | cons c cs =>
      have hlength : Scan.markupLength t.reading.rest =
          (Text.seek Scan.opensCode (c :: cs)).getD (c :: cs).length := by
        rw [← hrest]
        rfl
      have hsize := h.size
      rw [hrest] at hsize
      have hrest' := hdrop.trans hrest
      cases hseek : Text.seek Scan.opensCode (c :: cs) with
      | none =>
          have hfound : t.reading.found = .token .markup (c :: cs).length := by
            simp only [Lexer.found, hmode, hlength, hseek, Option.getD_none, List.length_cons]
          refine .taken .finished hrest' hfound ?_ (by rw [hmode]; rfl) ?_
          · simp [next, hstage, nextMarkup, hrest, hseek, hstart, hsize]
          · exact List.drop_eq_nil_of_le (Nat.le_refl _)
      | some n =>
          cases n with
          | zero =>
              have hfound : t.reading.found = .token .openTag 5 := by
                simp only [Lexer.found, hmode, hlength, hseek, Option.getD_some]
              have htag := Scan.utf8Size_of_opensCode (Text.seek_holds hseek)
              rw [List.drop_zero] at htag
              refine .taken (.code (t.start + 5) (.ofText ((c :: cs).drop 5))) hrest'
                hfound ?_ (by rw [hmode]; rfl) ?_
              · simp only [next, hstage, nextMarkup, hrest, hseek, hstart, htag, List.isEmpty_cons,
                  Bool.false_eq_true, if_false]
              · rw [htag]
                exact ⟨Nat.add_zero _, rfl⟩
          | succ n =>
              have hfound : t.reading.found = .token .markup (n + 1) := by
                simp only [Lexer.found, hmode, hlength, hseek, Option.getD_some]
              refine .taken .markup hrest' hfound ?_ (by rw [hmode]; rfl) trivial
              simp only [next, hstage, nextMarkup, hrest, hseek, hstart, List.isEmpty_cons,
                Bool.false_eq_true, if_false]

theorem matched_code (h : t.Agrees) {base : Nat} {block : CodeBlock}
    (hstage : t.stage = .code base block) : t.Matched := by
  have hmode : t.reading.mode = .code := by rw [reading, hstage]; rfl
  obtain ⟨hstop, hblock⟩ : base + block.stop = t.cursor.offset ∧ block.rest = t.cursor.rest := by
    have hfits := h.stage
    rwa [hstage] at hfits
  have hgap : Text.run Scan.isSpace t.cursor.rest = t.reading.gap := by rw [Lexer.gap, hmode]; rfl
  have hstart : base + (block.stop + Text.utf8Size (t.cursor.rest.take t.reading.gap)) = t.start := by
    rw [start]
    omega
  have hfound : t.reading.found = Scan.code (t.cursor.rest.drop t.reading.gap) := by
    rw [Lexer.found, hmode]
    rfl
  cases hrest : t.cursor.rest.drop t.reading.gap with
  | nil =>
      refine .ended hrest ?_
      simp only [next, hstage, nextCode, CodeBlock.next, hblock, hgap, hrest, List.isEmpty_nil, if_true]
  | cons c cs =>
      rw [hrest] at hfound
      cases hscan : Scan.code (c :: cs) with
      | token kind n =>
          let start := block.stop + Text.utf8Size (t.cursor.rest.take t.reading.gap)
          let behind : CodeBlock :=
            ⟨start, start + Text.utf8Size ((c :: cs).take n), (c :: cs).drop n⟩
          have hbehind : base + behind.stop = t.start + Text.utf8Size ((c :: cs).take n) := by
            rw [← hstart, Nat.add_assoc]
          refine .taken (if kind = .closeTag then .markup else .code base behind) hrest
            (hfound.trans hscan) ?_ ?_ ?_
          · rw [next, hstage, ← hbehind, ← hstart]
            simp only [nextCode, CodeBlock.next, hblock, hgap, hrest, hscan, List.isEmpty_cons,
              Bool.false_eq_true, if_false, behind, start]
          · rw [hmode, Mode.behind]
            split <;> rfl
          · split
            · trivial
            · exact ⟨hbehind, rfl⟩
      | unterminated closer =>
          refine .unterminated hrest (hfound.trans hscan) ?_
          rw [next, hstage, ← hstart]
          simp only [nextCode, CodeBlock.next, hblock, hgap, hrest, hscan, List.isEmpty_cons,
            Bool.false_eq_true, if_false]
      | unexpected =>
          refine .unexpected hrest (hfound.trans hscan) ?_
          rw [next, hstage, ← hstart]
          simp only [nextCode, CodeBlock.next, hblock, hgap, hrest, hscan, List.isEmpty_cons,
            Bool.false_eq_true, if_false]

theorem matched (h : t.Agrees) : t.Matched := by
  cases hstage : t.stage with
  | markup => exact h.matched_markup hstage
  | code base block => exact h.matched_code hstage
  | finished =>
      have hrest : t.cursor.rest = [] := by
        have hfits := h.stage
        rwa [hstage] at hfits
      refine .ended (by rw [hrest, List.drop_nil]) ?_
      rw [Tokenizer.next, hstage]
      simp only [← hstage]

-- A token leaves less text to read, and the places agree behind it.
theorem next (h : t.Agrees) {token : Token} {behind : Tokenizer}
    (hnext : t.next = (some (.ok token), behind)) :
    behind.Agrees ∧ behind.cursor.rest.length < t.cursor.rest.length := by
  cases h.matched with
  | ended _ next => rw [next] at hnext; cases hnext
  | unterminated _ _ next => rw [next] at hnext; cases hnext
  | unexpected _ _ next => rw [next] at hnext; cases hnext
  | @taken stage c cs kind n rest found next mode fits =>
      rw [next] at hnext
      cases hnext
      have hcursor := t.moveTo_stop rest n
      have hgap := Text.utf8Size_take_add_drop t.reading.gap t.cursor.rest
      have htoken := Text.utf8Size_take_add_drop n (c :: cs)
      rw [rest] at hgap
      have hlength := congrArg List.length rest
      rw [List.length_drop, List.length_cons] at hlength
      have hn := Lexer.found_pos found
      refine ⟨⟨?_, ?_⟩, ?_⟩ <;> simp only [hcursor]
      · rw [h.size, start]
        omega
      · exact fits
      · rw [List.length_drop, List.length_cons]
        omega

end Agrees

-- All tokens from here on, and the error that ended them, if any.
def tokens (t : Tokenizer) (h : t.Agrees) : List Token × Option LexError :=
  match hnext : t.next with
  | (none, _) => ([], none)
  | (some (.error e), _) => ([], some e)
  | (some (.ok token), behind) =>
      have := (h.next hnext).2
      let (rest, ending) := behind.tokens (h.next hnext).1
      (token :: rest, ending)
termination_by t.cursor.rest.length

-- What the tokenizer answers when it is asked for the `n`-th time, counted from zero.
def answer (t : Tokenizer) : Nat → Option (Except LexError Token)
  | 0 => t.next.1
  | n + 1 => t.next.2.answer n

end Tokenizer

-- All tokens of a source, comments and markup among them.
def tokenize (source : String) : List Token × Option LexError :=
  (Tokenizer.ofSource source).tokens (Tokenizer.agrees_ofSource source)

end Census
