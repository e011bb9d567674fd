import Census.Token.Lexer

namespace Census

-- What a token says of itself.
def Token.face (token : Token) : TokenKind × String := (token.kind, token.text)

namespace Text

-- A run of characters ends in front of the first one that does not belong to it.
theorem takeWhile_append {p : Char → Bool} {cs more : List Char} (hcs : cs.all p = true)
    (hmore : Scan.headIs p more = false) : (cs ++ more).takeWhile p = cs := by
  rw [List.takeWhile_append_of_pos (List.all_eq_true.1 hcs)]
  cases more with
  | nil => simp
  | cons c more => rw [List.takeWhile_cons_of_neg (by simpa [Scan.headIs] using hmore), List.append_nil]

theorem run_append {p : Char → Bool} {cs more : List Char} (hcs : cs.all p = true)
    (hmore : Scan.headIs p more = false) : run p (cs ++ more) = cs.length :=
  congrArg List.length (takeWhile_append hcs hmore)

end Text

namespace Scan

variable {text more : List Char}

-- A word goes on as long as parts of names follow.
theorem code_word (hstart : headIs isNameStart text = true) (hparts : text.all isNamePart = true)
    (hmore : headIs isNamePart more = false) : code (text ++ more) =
      .token ((Keyword.ofName? (String.ofList text)).elim .identifier .keyword) text.length := by
  have hname : (text ++ more).takeWhile isNamePart = text := Text.takeWhile_append hparts hmore
  have happlies : headIs isNameStart (text ++ more) = true := by
    cases text with
    | nil => cases hstart
    | cons c text => exact hstart
  have hrule : (rules.find? fun r => r.applies (text ++ more)) = some ⟨headIs isNameStart, word⟩ :=
    List.find?_cons_of_pos happlies
  simp only [code, hrule, word, hname]
  cases Keyword.ofName? (String.ofList text) <;> rfl

theorem spelled_keyword (k : Keyword) : headIs isNameStart k.word.toList = true ∧
    k.word.toList.all isNamePart = true ∧ Keyword.ofName? k.word = some k := by
  have hall : ∀ k ∈ Keyword.all, headIs isNameStart k.word.toList = true ∧
      k.word.toList.all isNamePart = true ∧ Keyword.ofName? k.word = some k := by
    decide +kernel
  exact hall k k.mem_all

theorem code_keyword (k : Keyword) (hmore : headIs isNamePart more = false) :
    code (k.word.toList ++ more) = .token (.keyword k) k.word.toList.length := by
  obtain ⟨hstart, hparts, hname⟩ := spelled_keyword k
  rw [code_word hstart hparts hmore, String.ofList_toList, hname, Option.elim_some]

-- A comment without slashes inside ends where it is closed.
theorem seek_commentEnd (h : '/' ∉ text) :
    Text.seek (startsWith "*/") (text ++ ("*/".toList ++ more)) = some text.length := by
  induction text with
  | nil => rfl
  | cons c text ih =>
      obtain ⟨hc, htext⟩ := not_or.1 (mt List.mem_cons.2 h)
      have hnot : startsWith "*/" (c :: text ++ ("*/".toList ++ more)) = false := by
        cases text with
        | nil => simp [startsWith, List.isPrefixOf]
        | cons d text =>
            have hd : d ≠ '/' := fun hd => htext (hd ▸ List.mem_cons_self)
            simp [startsWith, List.isPrefixOf, hd.symm]
      rw [List.cons_append] at hnot ⊢
      rw [Text.seek, if_neg (Bool.eq_false_iff.1 hnot), ih htext]
      rfl

theorem code_docComment (h : '/' ∉ text) :
    code ("/**".toList ++ (text ++ ("*/".toList ++ more))) = .token .docComment (text.length + 5) := by
  have hempty : startsWith "/**/" ("/**".toList ++ (text ++ ("*/".toList ++ more))) = false := by
    cases text with
    | nil => rfl
    | cons c text =>
        have hc : c ≠ '/' := fun hc => h (hc ▸ List.mem_cons_self)
        simp [startsWith, List.isPrefixOf, hc.symm]
  have hrule : (rules.find? fun r => r.applies ("/**".toList ++ (text ++ ("*/".toList ++ more)))) =
      some ⟨startsWith "/**", blockComment .docComment 3⟩ := by
    iterate 8 refine (List.find?_cons_of_neg (by exact Bool.false_ne_true)).trans ?_
    refine (List.find?_cons_of_neg (by simp only [hempty]; exact Bool.false_ne_true)).trans ?_
    exact List.find?_cons_of_pos rfl
  have hseek : Text.seek (startsWith "*/")
      (("/**".toList ++ (text ++ ("*/".toList ++ more))).drop 3) = some text.length := seek_commentEnd h
  simp only [code, hrule, blockComment, hseek, Found.token.injEq, true_and]
  omega

end Scan

namespace Lexer

variable {lexer : Lexer} {space text more : List Char} {kind : TokenKind}

-- A token is taken as it is found behind the gap.
theorem next?_of_found {text more : List Char} {kind : TokenKind}
    (hrest : lexer.rest.drop lexer.gap = text ++ more) (hne : text ≠ [])
    (hfound : lexer.found = .token kind text.length) :
    ∃ (t : Token) (next : Lexer), lexer.next? = some (.ok (t, next)) ∧ t.kind = kind ∧
      t.text = String.ofList text ∧ next.mode = lexer.mode.behind kind ∧ next.rest = more := by
  obtain ⟨c, front, rfl⟩ := List.exists_cons_of_ne_nil hne
  have hskip : (lexer.skip lexer.gap).rest = c :: front ++ more := hrest
  have hnext := next?_of_cons hrest
  rw [hfound] at hnext
  refine ⟨_, _, hnext, rfl, ?_, rfl, ?_⟩
  · simp only [hskip, List.take_left]
  · simp only [skip, hrest, List.drop_left]

-- In code, a token is taken behind any space.
theorem next?_written (hmode : lexer.mode = .code) (hrest : lexer.rest = space ++ (text ++ more))
    (hspace : space.all Scan.isSpace = true) (htext : Scan.headIs (!Scan.isSpace ·) text = true)
    (hcode : Scan.code (text ++ more) = .token kind text.length) :
    ∃ token next, lexer.next? = some (.ok (token, next)) ∧ token.kind = kind ∧
      token.text = String.ofList text ∧ next.mode = Mode.code.behind kind ∧ next.rest = more := by
  have hvisible : Scan.headIs Scan.isSpace (text ++ more) = false := by
    cases text with
    | nil => cases htext
    | cons c text => simpa [Scan.headIs] using htext
  have hgap : lexer.gap = space.length := by
    rw [gap, hmode, hrest]
    exact Text.run_append hspace hvisible
  have hbehind : lexer.rest.drop lexer.gap = text ++ more := by rw [hgap, hrest, List.drop_left]
  have hfound : lexer.found = .token kind text.length := by rw [found, hmode, hbehind, hcode]
  have hne : text ≠ [] := by
    rintro rfl
    cases htext
  rw [← hmode]
  exact next?_of_found hbehind hne hfound

-- A source may begin with the tag that opens code.
theorem next?_openTag {source : String} (h : source.toList = "<?php".toList ++ more) :
    ∃ token next, (ofSource source).next? = some (.ok (token, next)) ∧ token.kind = .openTag ∧
      next.mode = .code ∧ next.rest = more := by
  have hlength : Scan.markupLength source.toList = 0 := by
    rw [Scan.markupLength, h]
    rfl
  have hnext : (ofSource source).next? = some (.ok ((ofSource source).take .openTag 5 .code)) := by
    rw [next?]
    simp only [ofSource, hlength]
    rw [if_neg (by simp [h])]
  refine ⟨_, _, hnext, rfl, rfl, ?_⟩
  simp only [skip, ofSource, h]
  rfl

end Lexer

end Census
