import Census.Proofs.Operators.Term
import Census.Proofs.Token.Order
import Census.Proofs.Token.Written
import Mathlib.Data.List.Find

namespace Census

-- What may stand behind a word: nothing, a space or a semicolon.
def Delimited (cs : List Char) : Prop := ∀ c ∈ cs.head?, c = ' ' ∨ c = ';'

namespace Delimited

theorem nil : Delimited [] := nofun

theorem space (cs : List Char) : Delimited (' ' :: cs) := by
  rintro c ⟨rfl⟩
  exact .inl rfl

theorem takeWhile_append {p : Char → Bool} {cs more : List Char} (h : Delimited more)
    (hp : p ' ' = false ∧ p ';' = false) (hcs : cs.all p = true) :
    (cs ++ more).takeWhile p = cs := by
  refine Text.takeWhile_append hcs ?_
  cases more with
  | nil => rfl
  | cons c more =>
      rcases h c rfl with rfl | rfl
      · exact hp.1
      · exact hp.2

-- A text that begins a word is found there whether or not something stands behind it.
theorem startsWith_append {cs more : List Char} (h : Delimited more) (hcs : cs ≠ []) {s : String}
    (hs : ' ' ∉ s.toList.tail ∧ ';' ∉ s.toList.tail) :
    Scan.startsWith s (cs ++ more) = Scan.startsWith s cs := by
  have behind (cs p : List Char) (hp : ' ' ∉ p ∧ ';' ∉ p) :
      p.isPrefixOf (cs ++ more) = p.isPrefixOf cs := by
    induction cs generalizing p with
    | nil =>
        cases p with
        | nil => rfl
        | cons x p =>
            cases more with
            | nil => rfl
            | cons c more =>
                have hx : (x == c) = false := by
                  rw [beq_eq_false_iff_ne]
                  rintro rfl
                  rcases h x rfl with rfl | rfl
                  · exact hp.1 List.mem_cons_self
                  · exact hp.2 List.mem_cons_self
                simp only [List.nil_append, List.isPrefixOf, hx, Bool.false_and]
    | cons y cs ih =>
        cases p with
        | nil => rfl
        | cons x p =>
            simp only [List.cons_append, List.isPrefixOf]
            rw [ih p ⟨fun hm => hp.1 (List.mem_cons_of_mem _ hm),
              fun hm => hp.2 (List.mem_cons_of_mem _ hm)⟩]
  unfold Scan.startsWith
  cases cs with
  | nil => exact absurd rfl hcs
  | cons y cs =>
      cases hp : s.toList with
      | nil => rfl
      | cons x p =>
          rw [hp] at hs
          simp only [List.cons_append, List.isPrefixOf]
          rw [behind cs p hs]

theorem headIs_append {p : Char → Bool} {cs more : List Char} (hcs : cs ≠ []) :
    Scan.headIs p (cs ++ more) = Scan.headIs p cs := by
  cases cs with
  | nil => exact absurd rfl hcs
  | cons y cs => rfl

theorem headIs_tail_append {p : Char → Bool} {cs more : List Char} (h : Delimited more)
    (hcs : cs ≠ []) (hp : p ' ' = false ∧ p ';' = false) :
    Scan.headIs p (cs ++ more).tail = Scan.headIs p cs.tail := by
  match cs, hcs with
  | [y], _ =>
      cases more with
      | nil => rfl
      | cons c more =>
          rcases h c rfl with rfl | rfl
          · exact hp.1
          · exact hp.2
  | y :: z :: cs, _ => rfl

theorem applies_append {cs more : List Char} (h : Delimited more) (hcs : cs ≠ []) :
    ∀ r ∈ Scan.rules, r.applies (cs ++ more) = r.applies cs := by
  simp only [Scan.rules, List.forall_mem_cons]
  refine ⟨headIs_append hcs, headIs_append hcs, ?_, ?_, ?_⟩
  · rw [h.startsWith_append hcs (by decide), h.headIs_tail_append hcs (by decide)]
  · rw [h.startsWith_append hcs (by decide), h.headIs_tail_append hcs (by decide)]
  · refine ⟨?_, ?_, ?_, ?_, ?_, ?_, ?_, ?_, ?_, by simp⟩ <;>
      exact h.startsWith_append hcs (by decide)

end Delimited

namespace Spelling

-- No opener of another kind of token begins a spelling, and each spelling is found as a whole.
theorem scanned : ∀ s ∈ Symbol.spellings,
    s.1.toList ≠ [] ∧ ' ' ∉ s.1.toList.tail ∧ ';' ∉ s.1.toList.tail ∧
      (Scan.rules.find? fun r => r.applies s.1.toList).isNone = true ∧
      Scan.mark s.1.toList = .token (.symbol s.2) s.1.toList.length ∧
      Scan.headIs Scan.isSpace s.1.toList = false := by
  decide +kernel

theorem code (s : Spelling) {more : List Char} (h : Delimited more) :
    Scan.code (s.text.toList ++ more) = .token (.symbol s.symbol) s.text.toList.length := by
  obtain ⟨hne, -, -, hrules, hmark, -⟩ := scanned s.1 s.2
  have hfind : (Scan.rules.find? fun r => r.applies (s.text.toList ++ more)) = none :=
    (List.find?_congr (h.applies_append hne)).trans (Option.isNone_iff_eq_none.1 hrules)
  have hspellings : (Symbol.spellings.find? fun p => Scan.startsWith p.1 (s.text.toList ++ more)) =
      Symbol.spellings.find? fun p => Scan.startsWith p.1 s.text.toList := by
    refine List.find?_congr fun p hp => ?_
    obtain ⟨-, hspace, hsemicolon, -⟩ := scanned p hp
    exact h.startsWith_append hne ⟨hspace, hsemicolon⟩
  simp only [Scan.code, hfind, Scan.mark, hspellings]
  exact hmark

end Spelling

namespace Word

theorem code_joint (j : Joint) {more : List Char} (h : Delimited more) :
    Scan.code (j.keyword.word.toList ++ more) =
      .token (.keyword j.keyword) j.keyword.word.toList.length := by
  refine Scan.code_keyword j.keyword ?_
  cases more with
  | nil => rfl
  | cons c more => rcases h c rfl with rfl | rfl <;> rfl

theorem code_named (name : VariableName) {more : List Char} (h : Delimited more) :
    Scan.code ('$' :: (name.1 ++ more)) = .token .variableName (name.1.length + 1) := by
  obtain ⟨name, hstart, hpart⟩ := name
  have hne : name ≠ [] := by
    rintro rfl
    cases hstart
  have hname : (name ++ more).takeWhile Scan.isNamePart = name :=
    h.takeWhile_append (by decide) hpart
  have happlies : (Scan.startsWith "$" ('$' :: (name ++ more)) &&
      Scan.headIs Scan.isNameStart (name ++ more)) = true := by
    rw [Delimited.headIs_append hne, hstart]
    rfl
  have hrule : (Scan.rules.find? fun r => r.applies ('$' :: (name ++ more))) =
      some ⟨fun cs => Scan.startsWith "$" cs && Scan.headIs Scan.isNameStart cs.tail,
        Scan.variableName⟩ := by
    have hletter : ¬ Scan.isNameStart '$' = true := by decide
    have hdigit : ¬ Char.isDigit '$' = true := by decide
    rw [Scan.rules]
    refine (List.find?_cons_of_neg ?_).trans ((List.find?_cons_of_neg ?_).trans
      (List.find?_cons_of_pos happlies))
    · exact hletter
    · exact hdigit
  simp only [Scan.code, hrule, Scan.variableName, List.tail_cons, Text.run, hname, Nat.add_comm]

-- A word is read as a whole.
theorem code (w : Word) {more : List Char} (h : Delimited more) :
    Scan.code (w.text.toList ++ more) = .token w.kind w.text.toList.length := by
  cases w with
  | symbol s => exact s.code h
  | joint j => exact code_joint j h
  | named name =>
      have htext : (Word.named name).text.toList = '$' :: name.1 := by
        simp [text]
      rw [htext]
      exact code_named name h

-- A word begins with something other than space.
theorem headIs_text (w : Word) : Scan.headIs (!Scan.isSpace ·) w.text.toList = true := by
  cases w with
  | named name => simp [text, Scan.headIs, Scan.isSpace]
  | joint j => cases j <;> decide
  | symbol s =>
      obtain ⟨hne, -, -, -, -, hspace⟩ := Spelling.scanned s.1 s.2
      simp only [text, Spelling.text]
      cases hs : s.1.1.toList with
      | nil => exact absurd hs hne
      | cons c cs => simpa [hs, Scan.headIs] using hspace

theorem kind_ne_closeTag (w : Word) : w.kind ≠ .closeTag := by
  cases w <;> simp [kind]

theorem isSignificant_kind (w : Word) : w.kind.isSignificant = true := by
  cases w <;> rfl

-- The lexer takes a word behind any number of spaces.
theorem next? (w : Word) {n : Nat} {more : List Char} (h : Delimited more) {lexer : Lexer}
    (hmode : lexer.mode = .code)
    (hrest : lexer.rest = List.replicate n ' ' ++ (w.text.toList ++ more)) :
    ∃ token next, lexer.next? = some (.ok (token, next)) ∧ token.kind = w.kind ∧
      token.text = w.text ∧ next.mode = .code ∧ next.rest = more := by
  obtain ⟨token, next, hnext, hkind, htext, hmode', hrest'⟩ :=
    Lexer.next?_written hmode hrest (by simp [Scan.isSpace]) w.headIs_text (w.code h)
  rw [Mode.behind, if_neg w.kind_ne_closeTag] at hmode'
  exact ⟨token, next, hnext, hkind, htext.trans String.ofList_toList, hmode', hrest'⟩

-- Words with one space in front of each.
def spaced (ws : List Word) : List Char := ws.flatMap fun w => ' ' :: w.text.toList

end Word

-- What the token of a word says of itself.
def Word.face (w : Word) : TokenKind × String := (w.kind, w.text)

-- The tokens of words with one space in front of each, up to a semicolon that ends the source.
theorem Lexer.tokens_words {gap : Nat} (ws : List Word) {lexer : Lexer} (hmode : lexer.mode = .code)
    (hrest : lexer.rest = Word.spaced ws ++ (List.replicate gap ' ' ++ [';'])) :
    lexer.tokens.1.map Token.face = (ws ++ [Word.semicolon]).map Word.face ∧
      lexer.tokens.2 = none := by
  induction ws generalizing lexer with
  | nil =>
      obtain ⟨token, next, hnext, hkind, htext, hmode', hrest'⟩ :=
        Word.semicolon.next? .nil hmode hrest
      have hend : next.tokens = ([], none) := by
        have hnone : next.next? = none := by
          rw [Lexer.next?, hmode']
          simp [Lexer.skipSpace_rest, hrest']
        exact Lexer.tokens_of_none hnone
      rw [tokens_of_next? hnext, hend]
      exact ⟨congrArg (fun f => [f]) (Prod.ext hkind htext), rfl⟩
  | cons w ws ih =>
      have hmore : Delimited (Word.spaced ws ++ (List.replicate gap ' ' ++ [';'])) := by
        cases ws with
        | cons v ws => exact .space _
        | nil =>
            cases gap with
            | zero =>
                rintro c ⟨rfl⟩
                exact .inr rfl
            | succ gap => exact .space _
      rw [Word.spaced, List.flatMap_cons, List.append_assoc] at hrest
      obtain ⟨token, next, hnext, hkind, htext, hmode', hrest'⟩ :=
        w.next? (n := 1) hmore hmode (by simpa [Word.spaced] using hrest)
      obtain ⟨htokens, hending⟩ := ih hmode' hrest'
      rw [tokens_of_next? hnext]
      refine ⟨?_, hending⟩
      rw [List.map_cons, htokens, List.cons_append, List.map_cons]
      exact congrArg (· :: _) (Prod.ext hkind htext)

-- The significant tokens of a script of words.
theorem tokenize_words {gap : Nat} (ws : List Word) {source : String}
    (h : source.toList = "<?php".toList ++ (Word.spaced ws ++ (List.replicate gap ' ' ++ [';']))) :
    (significantTokens source).map Token.face = (ws ++ [Word.semicolon]).map Word.face ∧
      (tokenize source).2 = none := by
  obtain ⟨token, next, hnext, hkind, hmode, hrest⟩ := Lexer.next?_openTag h
  obtain ⟨hfaces, hending⟩ := Lexer.tokens_words ws hmode hrest
  rw [significantTokens, tokenize_eq, Lexer.tokens_of_next? hnext]
  refine ⟨?_, hending⟩
  -- The tag that opens code is not significant, and all words are.
  have hwords : ∀ t ∈ next.tokens.1, t.kind.isSignificant = true := by
    intro t ht
    obtain ⟨w, -, hw⟩ := List.mem_map.1 (hfaces ▸ List.mem_map_of_mem ht)
    rw [show t.kind = w.kind from congrArg Prod.fst hw.symm]
    exact w.isSignificant_kind
  refine Eq.trans (congrArg (List.map Token.face) ?_) hfaces
  exact (List.filter_cons_of_neg (by simp [hkind, TokenKind.isSignificant])).trans
    (List.filter_eq_self.2 hwords)

end Census
