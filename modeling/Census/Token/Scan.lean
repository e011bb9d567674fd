import Census.Text.Cursor
import Census.Text.Utf8
import Census.Token.Basic

namespace Census.Scan

open Text

-- What a scan finds at the beginning of a text: a kind with the number of characters that it
-- takes, or the reason why no token can be read there.
inductive Found where
  | token (kind : TokenKind) (length : Nat)
  | unterminated (closer : Closer)
  | unexpected
deriving DecidableEq, Repr

def isSpace (c : Char) : Bool :=
  c = ' ' || c = '\t' || c = '\r' || c = '\n' || c = '\x0c'

def isIndent (c : Char) : Bool := c = ' ' || c = '\t'

-- Names are ASCII words: letters, digits and underscores, with no digit in front.
def isNameStart (c : Char) : Bool := c.isAlpha || c = '_'

def isNamePart (c : Char) : Bool := c.isAlphanum || c = '_'

def isHexDigit (c : Char) : Bool :=
  c.isDigit || ('a' ≤ c && c ≤ 'f') || ('A' ≤ c && c ≤ 'F')

def headIs (p : Char → Bool) (cs : List Char) : Bool := cs.head?.any p

def startsWith (s : String) (cs : List Char) : Bool := s.toList.isPrefixOf cs

-- The tag that opens code may be written in any casing.
def opensCode (cs : List Char) : Bool := (cs.take 5).map Char.toLower = "<?php".toList

theorem utf8Size_of_opensCode {cs : List Char} (h : opensCode cs = true) :
    utf8Size (cs.take 5) = 5 := by
  have htag : (cs.take 5).map Char.toLower = "<?php".toList := of_decide_eq_true h
  rw [← utf8Size_map_toLower, htag]
  decide

-- Markup reaches to the next tag that opens code, or to the end.
def markupLength (cs : List Char) : Nat := (seek opensCode cs).getD cs.length

-- A line comment ends before a line break and before a tag that closes code.
def lineCommentLength (cs : List Char) : Nat :=
  (seek (fun r => startsWith "\n" r || startsWith "\r" r || startsWith "?>" r) cs).getD cs.length

def lineComment (opener : Nat) (cs : List Char) : Found :=
  .token .lineComment (opener + lineCommentLength (cs.drop opener))

-- A comment block whose opener has `opener` characters.
def blockComment (kind : TokenKind) (opener : Nat) (cs : List Char) : Found :=
  match seek (startsWith "*/") (cs.drop opener) with
  | some n => .token kind (opener + n + 2)
  | none => .unterminated .commentEnd

-- The number of bytes through the closing delimiter of a quoted literal, where `passed` bytes lie
-- in front of those that are left. A backslash takes the byte behind it along, whatever character
-- that byte is a part of.
def quotedEnd (delimiter : UInt8) (passed : Nat) : List UInt8 → Option Nat
  | [] => none
  | b :: rest =>
      if b = '\\'.toUInt8 then
        match rest with
        | [] => none
        | _ :: rest => quotedEnd delimiter (passed + 2) rest
      else if b = delimiter then some (passed + 1)
      else quotedEnd delimiter (passed + 1) rest

def quotedString (quote : Char) (closer : Closer) (cs : List Char) : Found :=
  match quotedEnd quote.toUInt8 0 (Utf8.bytes cs.tail) with
  | some n => .token .string ((takeBytes n cs.tail).length + 1)
  | none => .unterminated closer

-- The label of a heredoc, with the number of characters that its header takes.
def heredocHeader (cs : List Char) : Option (List Char × Nat) :=
  let indent := run isIndent cs
  let header := cs.drop indent
  let quote := header.head?.filter fun c => c = '\'' || c = '"'
  let opening := if quote.isSome then 1 else 0
  let label := (header.drop opening).takeWhile isNamePart
  if headIs isNameStart label then
    match quote with
    | none => some (label, indent + label.length)
    | some q =>
        if (header.drop (1 + label.length)).head? = some q then
          some (label, indent + label.length + 2)
        else none
  else none

-- Whether a line break stands here whose line begins with the closing label.
def closesHeredoc (label cs : List Char) : Bool :=
  startsWith "\n" cs &&
    let line := cs.drop (1 + run isIndent cs.tail)
    label.isPrefixOf line && !headIs isNamePart (line.drop label.length)

-- A text that begins with `<<<`.
def heredoc (cs : List Char) : Found :=
  match heredocHeader (cs.drop 3) with
  | none => .unexpected
  | some (label, header) =>
      let body := cs.drop (3 + header)
      match seek (closesHeredoc label) body with
      | none => .unterminated .heredocLabel
      | some n =>
          let indent := run isIndent (body.drop (n + 1))
          .token .string (3 + header + n + 1 + indent + label.length)

-- The length of an exponent part, or zero.
def exponentLength (cs : List Char) : Nat :=
  let marked := headIs (fun c => c = 'e' || c = 'E') cs
  let sign := if headIs (fun c => c = '+' || c = '-') cs.tail then 1 else 0
  let digits := run Char.isDigit (cs.drop (1 + sign))
  if marked && digits != 0 then 1 + sign + digits else 0

-- The digits behind a two-character base mark such as `0x`, if there are any.
def basedLength (mark : Char) (isDigit : Char → Bool) (cs : List Char) : Option Nat :=
  let digits := run isDigit (cs.drop 2)
  if (cs.take 2).map Char.toLower = ['0', mark] && digits != 0 then some (2 + digits) else none

-- A number that begins with a digit.
def number (cs : List Char) : Found :=
  match (basedLength 'x' isHexDigit cs).or (basedLength 'b' (fun c => c = '0' || c = '1') cs) with
  | some n => .token .integer n
  | none =>
      let whole := run Char.isDigit cs
      let rest := cs.drop whole
      if startsWith "." rest then
        let fraction := run Char.isDigit rest.tail
        .token .float (whole + 1 + fraction + exponentLength (rest.drop (1 + fraction)))
      else
        let exponent := exponentLength rest
        if exponent = 0 then .token .integer whole else .token .float (whole + exponent)

-- A number that begins with a point, which a digit must follow.
def fractionNumber (cs : List Char) : Found :=
  let fraction := run Char.isDigit cs.tail
  .token .float (1 + fraction + exponentLength (cs.drop (1 + fraction)))

def variableName (cs : List Char) : Found :=
  .token .variableName (1 + run isNamePart cs.tail)

def word (cs : List Char) : Found :=
  let name := cs.takeWhile isNamePart
  match Keyword.ofName? (String.ofList name) with
  | some k => .token (.keyword k) name.length
  | none => .token .identifier name.length

-- Punctuation, or a character that begins no token.
def mark (cs : List Char) : Found :=
  match Symbol.spellings.find? fun s => startsWith s.1 cs with
  | some (text, s) => .token (.symbol s) text.length
  | none => .unexpected

-- One way to read a token, and how a text must begin for it.
structure Rule where
  applies : List Char → Bool
  scan : List Char → Found

-- No two of these beginnings overlap, except that a longer opener stands before a shorter one.
def rules : List Rule := [
  ⟨headIs isNameStart, word⟩,
  ⟨headIs Char.isDigit, number⟩,
  ⟨fun cs => startsWith "$" cs && headIs isNameStart cs.tail, variableName⟩,
  ⟨fun cs => startsWith "." cs && headIs Char.isDigit cs.tail, fractionNumber⟩,
  ⟨startsWith "'", quotedString '\'' .singleQuote⟩,
  ⟨startsWith "\"", quotedString '"' .doubleQuote⟩,
  ⟨startsWith "#", lineComment 1⟩,
  ⟨startsWith "//", lineComment 2⟩,
  ⟨startsWith "/**/", fun _ => .token .docComment 4⟩,
  ⟨startsWith "/**", blockComment .docComment 3⟩,
  ⟨startsWith "/*", blockComment .blockComment 2⟩,
  ⟨startsWith "<<<", heredoc⟩,
  ⟨startsWith "?>", fun _ => .token .closeTag 2⟩]

-- The token at the beginning of a code text that does not begin with space. Among all
-- patterns that fit there, it takes the longest.
def code (cs : List Char) : Found :=
  match rules.find? fun r => r.applies cs with
  | some r => r.scan cs
  | none => mark cs

theorem basedLength_pos {mark : Char} {isDigit : Char → Bool} {cs : List Char} {n : Nat}
    (h : basedLength mark isDigit cs = some n) : 0 < n := by
  unfold basedLength at h
  dsimp only at h
  split at h <;> cases h
  omega

theorem number_pos {cs : List Char} (h : headIs Char.isDigit cs) {kind : TokenKind} {n : Nat}
    (found : number cs = .token kind n) : 0 < n := by
  have whole : 0 < run Char.isDigit cs := by
    cases cs with
    | nil => cases h
    | cons c rest => simp [run, show c.isDigit = true from h]
  unfold number at found
  split at found
  · rename_i m based
    simp only [Found.token.injEq] at found
    obtain ⟨_, rfl⟩ := found
    rcases Option.or_eq_some_iff.1 based with h | ⟨_, h⟩ <;>
      exact basedLength_pos h
  · simp only at found
    split at found
    · cases found
      omega
    · split at found <;>
      · cases found
        omega

theorem word_pos {cs : List Char} (h : headIs isNameStart cs) {kind : TokenKind} {n : Nat}
    (found : word cs = .token kind n) : 0 < n := by
  cases cs with
  | nil => cases h
  | cons c rest =>
      have start : isNameStart c = true := h
      have part : isNamePart c = true := by
        simp only [isNameStart, isNamePart, Char.isAlphanum, Bool.or_eq_true] at start ⊢
        exact start.imp_left .inl
      unfold word at found
      simp only [List.takeWhile_cons, part, if_true] at found
      split at found <;>
      · cases found
        simp

theorem spelling_pos : ∀ s ∈ Symbol.spellings, 0 < s.1.length := by decide

theorem mark_pos {cs : List Char} {kind : TokenKind} {n : Nat}
    (found : mark cs = .token kind n) : 0 < n := by
  unfold mark at found
  split at found
  · rename_i text s h
    cases found
    exact spelling_pos _ (List.mem_of_find?_eq_some h)
  · cases found

theorem blockComment_pos {k kind : TokenKind} {opener n : Nat} {cs : List Char}
    (found : blockComment k opener cs = .token kind n) : 0 < n := by
  unfold blockComment at found
  split at found <;> cases found
  omega

theorem quotedString_pos {q : Char} {closer : Closer} {cs : List Char} {kind : TokenKind}
    {n : Nat} (found : quotedString q closer cs = .token kind n) : 0 < n := by
  unfold quotedString at found
  split at found <;> cases found
  omega

theorem heredoc_pos {cs : List Char} {kind : TokenKind} {n : Nat}
    (found : heredoc cs = .token kind n) : 0 < n := by
  unfold heredoc at found
  split at found
  · cases found
  · dsimp only at found
    split at found <;> cases found
    omega

theorem rule_pos : ∀ r ∈ rules, ∀ cs, r.applies cs = true → ∀ kind n,
    r.scan cs = .token kind n → 0 < n := by
  simp only [rules, List.forall_mem_cons]
  refine ⟨fun _ h _ _ => word_pos h, fun _ h _ _ => number_pos h, ?_, ?_,
    fun _ _ _ _ => quotedString_pos, fun _ _ _ _ => quotedString_pos, ?_, ?_, ?_,
    fun _ _ _ _ => blockComment_pos, fun _ _ _ _ => blockComment_pos,
    fun _ _ _ _ => heredoc_pos, ?_, by simp⟩ <;>
  · rintro cs - kind n ⟨⟩
    omega

-- Every token takes at least one character.
theorem code_pos {cs : List Char} {kind : TokenKind} {n : Nat}
    (found : code cs = .token kind n) : 0 < n := by
  unfold code at found
  split at found
  · rename_i r h
    have applies : r.applies cs = true := List.find?_some (p := fun r : Rule => r.applies cs) h
    exact rule_pos r (List.mem_of_find?_eq_some h) cs applies kind n found
  · exact mark_pos found

end Census.Scan
