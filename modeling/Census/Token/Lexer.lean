import Census.Token.Scan

namespace Census

-- Text outside of code is passed over as markup.
inductive Mode where
  | markup | code
deriving DecidableEq, Repr

-- What stands behind a token: one tag opens code and another one closes it.
def Mode.behind : Mode → TokenKind → Mode
  | .markup, kind => if kind = .openTag then .code else .markup
  | .code, kind => if kind = .closeTag then .markup else .code

-- A reading point in a source. `offset` and `position` are those of the first character
-- of `rest`.
structure Lexer where
  mode : Mode
  offset : Nat
  position : Position
  rest : List Char
deriving Repr

namespace Lexer

def ofSource (source : String) : Lexer := ⟨.markup, 0, .first, source.toList⟩

-- The reading point `n` characters further on.
def skip (lexer : Lexer) (n : Nat) : Lexer :=
  { lexer with
    offset := lexer.offset + Text.utf8Size (lexer.rest.take n)
    position := lexer.position.advance n lexer.rest
    rest := lexer.rest.drop n }

-- The next `n` characters as one token, and the reading point behind it.
def take (lexer : Lexer) (kind : TokenKind) (n : Nat) (mode : Mode) : Token × Lexer :=
  let next := lexer.skip n
  ({ kind
     text := String.ofList (lexer.rest.take n)
     start := Token.offset lexer.offset
     stop := Token.offset next.offset
     span := ⟨lexer.position, lexer.position.advance (n - 1) lexer.rest⟩ },
   { next with mode })

def skipSpace (lexer : Lexer) : Lexer := lexer.skip (Text.run Scan.isSpace lexer.rest)

-- The next token. There is none at the end of the source, or behind the last code if only
-- space follows.
def next? (lexer : Lexer) : Option (Except LexError (Token × Lexer)) :=
  match lexer.mode with
  | .markup =>
      if lexer.rest.isEmpty then none
      else
        match Scan.markupLength lexer.rest with
        | 0 => some (.ok (lexer.take .openTag 5 .code))
        | n + 1 => some (.ok (lexer.take .markup (n + 1) .markup))
  | .code =>
      let lexer := lexer.skipSpace
      match lexer.rest with
      | [] => none
      | c :: _ =>
          match Scan.code lexer.rest with
          | .token kind n =>
              some (.ok (lexer.take kind n (if kind = .closeTag then .markup else .code)))
          | .unterminated closer => some (.error (.unterminated lexer.position closer))
          | .unexpected => some (.error (.unexpectedCharacter lexer.position c))

-- The number of spaces in front of the next token. Outside of code there are none.
def gap (lexer : Lexer) : Nat :=
  match lexer.mode with
  | .markup => 0
  | .code => Text.run Scan.isSpace lexer.rest

-- What stands behind these spaces.
def found (lexer : Lexer) : Scan.Found :=
  match lexer.mode with
  | .markup =>
      match Scan.markupLength lexer.rest with
      | 0 => .token .openTag 5
      | n + 1 => .token .markup (n + 1)
  | .code => Scan.code (lexer.rest.drop lexer.gap)

section Next

variable {lexer : Lexer}

theorem next?_of_nil (h : lexer.rest.drop lexer.gap = []) : lexer.next? = none := by
  unfold next?
  cases hmode : lexer.mode with
  | markup =>
      simp only [gap, hmode, List.drop_zero] at h
      simp [h]
  | code =>
      simp only [gap, hmode] at h
      simp only [skipSpace, skip, h]

theorem next?_of_cons {c : Char} {cs : List Char} (h : lexer.rest.drop lexer.gap = c :: cs) :
    lexer.next? = match lexer.found with
      | .token kind n =>
          some (.ok ((lexer.skip lexer.gap).take kind n (lexer.mode.behind kind)))
      | .unterminated closer =>
          some (.error (.unterminated (lexer.skip lexer.gap).position closer))
      | .unexpected => some (.error (.unexpectedCharacter (lexer.skip lexer.gap).position c)) := by
  unfold next? found
  cases hmode : lexer.mode with
  | markup =>
      simp only [gap, hmode, List.drop_zero] at h ⊢
      rw [if_neg (by simp [h])]
      cases Scan.markupLength lexer.rest <;> rfl
  | code =>
      simp only [gap, hmode] at h ⊢
      simp only [skipSpace, skip, h]
      cases Scan.code (c :: cs) with
      | token kind n =>
          simp only [Mode.behind]
      | unterminated closer => rfl
      | unexpected => rfl

theorem found_pos {kind : TokenKind} {n : Nat} (h : lexer.found = .token kind n) : 0 < n := by
  unfold found at h
  split at h
  · split at h <;> cases h <;> omega
  · exact Scan.code_pos h

end Next

theorem rest_of_take {lexer next : Lexer} {token : Token} {kind : TokenKind} {n : Nat}
    {mode : Mode} (h : lexer.take kind n mode = (token, next)) :
    next.rest = lexer.rest.drop n := by
  cases h
  rfl

theorem skipSpace_rest (lexer : Lexer) :
    lexer.skipSpace.rest = lexer.rest.drop (Text.run Scan.isSpace lexer.rest) := rfl

-- Every token shortens the text that is left, so a source has finitely many.
theorem next?_shorter {lexer next : Lexer} {token : Token}
    (h : lexer.next? = some (.ok (token, next))) : next.rest.length < lexer.rest.length := by
  unfold next? at h
  split at h
  · split at h
    · cases h
    · rename_i nonempty
      have pos : 0 < lexer.rest.length := by
        cases hr : lexer.rest with
        | nil => simp [hr] at nonempty
        | cons => simp
      split at h <;>
      · simp only [Option.some.injEq, Except.ok.injEq] at h
        rw [rest_of_take h, List.length_drop]
        omega
  · simp only at h
    split at h
    · cases h
    · rename_i c rest hr
      split at h
      · rename_i kind n found
        have pos := Scan.code_pos found
        have len : lexer.skipSpace.rest.length ≤ lexer.rest.length := by
          rw [skipSpace_rest, List.length_drop]
          omega
        have here : 0 < lexer.skipSpace.rest.length := by simp [hr]
        simp only [Option.some.injEq, Except.ok.injEq] at h
        rw [rest_of_take h, List.length_drop]
        omega
      · cases h
      · cases h

-- All tokens from here on, and the error that ended them, if any.
def tokens (lexer : Lexer) : List Token × Option LexError :=
  match h : lexer.next? with
  | none => ([], none)
  | some (.error e) => ([], some e)
  | some (.ok (token, next)) =>
      have := next?_shorter h
      let (rest, ending) := next.tokens
      (token :: rest, ending)
termination_by lexer.rest.length

section Tokens

variable {lexer next : Lexer} {token : Token}

theorem tokens_of_none (h : lexer.next? = none) : lexer.tokens = ([], none) := by
  rw [tokens]
  split <;> simp_all

theorem tokens_of_error {e : LexError} (h : lexer.next? = some (.error e)) :
    lexer.tokens = ([], some e) := by
  rw [tokens]
  split <;> simp_all

theorem tokens_of_next? (h : lexer.next? = some (.ok (token, next))) :
    lexer.tokens = (token :: next.tokens.1, next.tokens.2) := by
  rw [tokens]
  split <;> simp_all

end Tokens

end Lexer

end Census
