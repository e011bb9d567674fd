import Census.Proofs.Script.Layout
import Census.Proofs.Skeleton.DocComment
import Census.Proofs.Token.Written

namespace Census

namespace Scan

theorem isSpace_of_isNameStart {c : Char} (h : isNameStart c = true) : isSpace c = false := by
  by_contra hspace
  simp only [isSpace, Bool.or_eq_true, decide_eq_true_eq, Bool.not_eq_false] at hspace
  rcases hspace with (((rfl | rfl) | rfl) | rfl) | rfl <;> exact absurd h (by decide)

theorem isNamePart_of_isSpace {c : Char} (h : isSpace c = true) : isNamePart c = false := by
  simp only [isSpace, Bool.or_eq_true, decide_eq_true_eq] at h
  rcases h with (((rfl | rfl) | rfl) | rfl) | rfl <;> decide

theorem headIs_space_append {space more : List Char} (h : space.all isSpace = true)
    (hmore : headIs isNamePart more = false) : headIs isNamePart (space ++ more) = false := by
  cases space with
  | nil => exact hmore
  | cons c space => exact isNamePart_of_isSpace (List.all_eq_true.1 h c List.mem_cons_self)

end Scan

namespace Skeleton

open Scan

namespace Atom

variable (a : Atom)

theorem headIs_text : headIs (!isSpace ·) a.text.toList = true := by
  have hword {text : List Char} (h : headIs isNameStart text = true) :
      headIs (!isSpace ·) text = true := by
    cases text with
    | nil => cases h
    | cons c text =>
        have hc : isSpace c = false := isSpace_of_isNameStart h
        simp [headIs, hc]
  cases a with
  | keyword k annotated => exact hword (spelled_keyword k).1
  | identifier name => exact hword name.start
  | mark m => cases m <;> decide

theorem code {more : List Char} (h : a.isWord = true → headIs isNamePart more = false) :
    Scan.code (a.text.toList ++ more) = .token a.kind a.text.toList.length := by
  cases a with
  | keyword k annotated => exact code_keyword k (h rfl)
  | identifier name =>
      rw [text, code_word name.start name.parts (h rfl), String.ofList_toList, name.free]
      rfl
  | mark m => cases m <;> rfl

theorem isSignificant_kind : a.kind.isSignificant = true := by
  cases a <;> rfl

theorem behind_kind : Mode.code.behind a.kind = .code := by
  cases a <;> simp [Mode.behind, kind]

-- What a token says that is written with some space around it.
def meaning (spacing : Spacing) : Meaning :=
  ⟨a.kind, a.text, a.annotated.map fun annotated =>
    String.ofList (docComment spacing.margin.1 annotated)⟩

end Atom

-- In a doc comment there is no slash but in its opener and its closer.
theorem code_docComment {margin : List Char} (hmargin : margin.all isIndent = true)
    (annotated : List QualifiedName) (more : List Char) :
    Scan.code (docComment margin annotated ++ more) =
      .token .docComment (docComment margin annotated).length := by
  have hslash : '/' ∉ margin := fun h => absurd (List.all_eq_true.1 hmargin _ h) (by decide)
  have hline (name : QualifiedName) : '/' ∉ throwsLine margin name ++ ['\n'] := by
    simp only [throwsLine, List.mem_append, not_or]
    exact ⟨⟨⟨hslash, by decide⟩, name.not_mem (by decide) (by decide)⟩, by decide⟩
  have hbody : '/' ∉ '\n' :: (annotated.flatMap (fun name => throwsLine margin name ++ ['\n']) ++ margin) := by
    rw [List.mem_cons, List.mem_append, List.mem_flatMap]
    rintro (h | ⟨name, -, h⟩ | h)
    · exact absurd h (by decide)
    · exact hline name h
    · exact hslash h
  have hsplit : docComment margin annotated = "/**".toList ++
      ('\n' :: (annotated.flatMap (fun name => throwsLine margin name ++ ['\n']) ++ margin) ++
        "*/".toList) := by
    simp [docComment]
  rw [hsplit, List.append_assoc, List.append_assoc, Scan.code_docComment hbody]
  have hopener : "/**".toList.length = 3 := rfl
  have hcloser : "*/".toList.length = 2 := rfl
  simp only [List.length_append, hopener, hcloser, Found.token.injEq, true_and]
  omega

variable {layout : Layout} {i : Nat} {behindWord : Bool}

-- Behind a word, what is written does not go on with a part of a name.
theorem headIs_written (atoms : List Atom) :
    headIs isNamePart (written layout i true atoms) = false := by
  cases atoms with
  | nil =>
      rw [written, ← List.append_nil (layout i).before.1]
      exact headIs_space_append (layout i).before.2 rfl
  | cons a rest =>
      cases a with
      | keyword k annotated => rfl
      | identifier name => rfl
      | mark m =>
          simp only [written, Atom.isWord, Bool.and_false, if_neg Bool.false_ne_true, List.nil_append,
            List.append_assoc]
          refine headIs_space_append (layout i).before.2 ?_
          cases m <;> rfl

section Lexer

variable {lexer : Lexer} {a : Atom} {rest : List Atom}

-- The next token of what is written, behind its doc comment.
theorem next?_atom (hmode : lexer.mode = .code) {space : List Char} (hspace : space.all isSpace = true)
    (hrest : lexer.rest = space ++ (a.text.toList ++ written layout i a.isWord rest)) :
    ∃ token next, lexer.next? = some (.ok (token, next)) ∧ token.kind = a.kind ∧
      token.text = a.text ∧ next.mode = .code ∧ next.rest = written layout i a.isWord rest := by
  have hmore : a.isWord = true → headIs isNamePart (written layout i a.isWord rest) = false := by
    intro hword
    rw [hword]
    exact headIs_written rest
  obtain ⟨token, next, hnext, hkind, htext, hmode', hrest'⟩ :=
    Lexer.next?_written hmode hrest hspace a.headIs_text (a.code hmore)
  exact ⟨token, next, hnext, hkind, htext.trans String.ofList_toList,
    hmode'.trans a.behind_kind, hrest'⟩

-- A token with its doc comment gives one lexeme.
theorem lexemes_atom (hmode : lexer.mode = .code)
    (hrest : lexer.rest = written layout i behindWord (a :: rest)) :
    ∃ (lexeme : Lexeme) (next : Lexer), lexeme.meaning = a.meaning (layout i) ∧
      Lexeme.ofTokensFrom none lexer.tokens.1 = lexeme :: Lexeme.ofTokensFrom none next.tokens.1 ∧
      lexer.tokens.2 = next.tokens.2 ∧ next.mode = .code ∧
      next.rest = written layout (i + 1) a.isWord rest := by
  have hspace : ((if behindWord && a.isWord then [' '] else []) ++ (layout i).before.1).all isSpace = true := by
    rw [List.all_append, (layout i).before.2, Bool.and_true]
    split <;> rfl
  cases hdoc : a.annotated with
  | none =>
      rw [written, docText, hdoc, Option.elim_none, List.append_nil, List.append_assoc] at hrest
      obtain ⟨token, next, hnext, hkind, htext, hmode', hrest'⟩ := next?_atom hmode hspace hrest
      refine ⟨⟨token, none⟩, next, ?_, ?_, ?_, hmode', hrest'⟩
      · simp [Lexeme.meaning, Atom.meaning, hkind, htext, hdoc]
      · simp [Lexer.tokens_of_next? hnext, Lexeme.ofTokensFrom, hkind, a.isSignificant_kind]
      · rw [Lexer.tokens_of_next? hnext]
  | some annotated =>
      have hbehind : lexer.rest =
          ((if behindWord && a.isWord then [' '] else []) ++ (layout i).before.1) ++
            (docComment (layout i).margin.1 annotated ++ ((layout i).behind.1 ++
              (a.text.toList ++ written layout (i + 1) a.isWord rest))) := by
        rw [hrest, written, docText, hdoc]
        simp only [Option.elim_some, List.append_assoc]
      obtain ⟨comment, behind, hcomment, hkind, htext, hmode', hrest'⟩ :=
        Lexer.next?_written hmode hbehind hspace rfl
          (code_docComment (layout i).margin.2 annotated _)
      obtain ⟨token, next, hnext, hkind', htext', hmode'', hrest''⟩ :=
        next?_atom hmode' (layout i).behind.2 hrest'
      refine ⟨⟨token, some comment.text⟩, next, ?_, ?_, ?_, hmode'', hrest''⟩
      · simp [Lexeme.meaning, Atom.meaning, hkind', htext', hdoc, htext]
      · have hskip : TokenKind.docComment.isSignificant = false := rfl
        simp [Lexer.tokens_of_next? hcomment, Lexer.tokens_of_next? hnext, Lexeme.ofTokensFrom, hkind,
          hkind', a.isSignificant_kind, hskip]
      · rw [Lexer.tokens_of_next? hcomment, Lexer.tokens_of_next? hnext]

theorem meanings_written (atoms : List Atom) (hmode : lexer.mode = .code)
    (hrest : lexer.rest = written layout i behindWord atoms) :
    (Lexeme.ofTokensFrom none lexer.tokens.1).map Lexeme.meaning =
        atoms.mapIdx (fun k a => a.meaning (layout (i + k))) ∧
      lexer.tokens.2 = none := by
  induction atoms generalizing lexer i behindWord with
  | nil =>
      have hend : lexer.rest.drop lexer.gap = [] := by
        rw [Lexer.gap, hmode, hrest, written, Text.run,
          List.takeWhile_eq_self_iff.2 (List.all_eq_true.1 (layout i).before.2), List.drop_length]
      rw [Lexer.tokens_of_none (Lexer.next?_of_nil hend)]
      exact ⟨rfl, rfl⟩
  | cons a rest ih =>
      obtain ⟨lexeme, next, hmeaning, hlexemes, hending, hmode', hrest'⟩ := lexemes_atom hmode hrest
      obtain ⟨hmeanings, hnone⟩ := ih hmode' hrest'
      refine ⟨?_, hending.trans hnone⟩
      rw [hlexemes, List.map_cons, hmeaning, hmeanings, List.mapIdx_cons]
      simp only [Nat.add_assoc, Nat.add_comm 1, Nat.add_zero]

end Lexer

-- The significant tokens of a skeleton are those from which it is written.
theorem meanings_source (skeleton : Skeleton) (layout : Layout) :
    (Script.ofSource (skeleton.source layout)).meanings =
        skeleton.atoms.mapIdx (fun k a => a.meaning (layout k)) ∧
      (Script.ofSource (skeleton.source layout)).ending = none := by
  have hsource : (skeleton.source layout).toList = "<?php".toList ++ written layout 0 true skeleton.atoms :=
    String.toList_ofList
  obtain ⟨token, next, hnext, hkind, hmode, hrest⟩ := Lexer.next?_openTag hsource
  obtain ⟨hmeanings, hending⟩ := meanings_written skeleton.atoms hmode hrest
  simp only [Nat.zero_add] at hmeanings
  simp [Script.meanings, Script.ofSource, tokenize_eq, Lexer.tokens_of_next? hnext, Lexeme.ofTokens,
    Lexeme.ofTokensFrom, hkind, TokenKind.isSignificant, hmeanings, hending]

end Skeleton

end Census
