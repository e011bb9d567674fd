import Census.Proofs.Token.Separation

namespace Census

open Text Scan

-- A text of a source from the first of some tokens on, with one line feed in place of what stands
-- in front of each token of code.
def reformat : Mode → List Token → List Char → List Char
  | _, [], rest => rest
  | .markup, t :: later, rest => t.text.toList ++
      reformat (Mode.markup.behind t.kind) later (rest.drop t.text.toList.length)
  | .code, t :: later, rest => '\n' :: (t.text.toList ++
      reformat (Mode.code.behind t.kind) later (rest.drop (run isSpace rest + t.text.toList.length)))

def reformatted (source : String) : String :=
  String.ofList (reformat .markup (tokenize source).1 source.toList)

namespace Scan

variable {cs text more other : List Char} {kind : TokenKind} {n : Nat}

-- The tag that closes code has one spelling.
theorem text_of_closeTag (h : code (text ++ more) = .token .closeTag text.length) :
    text = "?>".toList := by
  obtain ⟨p, front, part, rfl, hp, hkind, hread⟩ := longest_of_code h
  cases p with
  | closeTag =>
      obtain rfl : front = "?>".toList := hp.mem
      obtain rfl : part = [] := List.length_eq_zero_iff.1 (by have := (Found.token.inj hread).2; omega)
      rfl
  | opener o => cases o <;> cases hkind
  | _ => cases hkind

-- Whether code opens is seen within five characters.
theorem opensCode_append (h : more.take 5 = other.take 5) (text : List Char) :
    opensCode (text ++ more) = opensCode (text ++ other) := by
  have hshort (rest : List Char) : rest.take (5 - text.length) = (rest.take 5).take (5 - text.length) := by
    rw [List.take_take, Nat.min_eq_left (Nat.sub_le 5 text.length)]
  rw [opensCode, opensCode, List.take_append, List.take_append, hshort more, hshort other, h]

theorem markupLength_of_opensCode (h : opensCode text = true) : markupLength text = 0 := by
  cases text with
  | nil => cases h
  | cons c text =>
      rw [markupLength, seek, if_pos h]
      rfl

-- Code opens behind markup, unless the source ends there.
theorem opens_of_markupLength (h : markupLength (text ++ more) = text.length) :
    more = [] ∨ opensCode more = true :=
  holds_of_seek_getD h

-- There is no tag that opens code within markup, in any casing.
theorem lacks_openTag (h : markupLength (text ++ more) = text.length) :
    ∀ part, part <:+: text → part.map Char.toLower ≠ "<?php".toList := by
  rintro part ⟨front, back, hpart⟩ htag
  have hfive : part.length = 5 := by
    rw [← List.length_map Char.toLower, htag]
    rfl
  have hshort : front.length < text.length := by
    rw [← hpart, List.length_append, List.length_append]
    omega
  have hnot : opensCode ((text ++ more).drop front.length) = false :=
    seek_before (Nat.lt_of_lt_of_eq hshort h.symm)
  rw [← hpart, List.append_assoc, List.append_assoc, List.drop_left, opensCode, List.take_left' hfive,
    htag] at hnot
  cases hnot

-- Markup ends where it did if the same tag opens code there.
theorem markupLength_append (h : markupLength (text ++ more) = text.length)
    (hmore : more.take 5 = other.take 5) : markupLength (text ++ other) = text.length := by
  rcases opens_of_markupLength h with rfl | hopens
  · obtain rfl : other = [] := by simpa using hmore.symm
    exact h
  · have hother : opensCode ([] ++ other) = true := by rwa [← opensCode_append hmore]
    have hend : seek opensCode (text ++ other) = some text.length := by
      refine seek_eq_some.2 ⟨?_, by rwa [List.drop_left], fun m hm => ?_⟩
      · cases other with
        | nil => cases hother
        | cons c other => simp
      · have hbefore := seek_before (Nat.lt_of_lt_of_eq hm h.symm)
        rw [List.drop_append_of_le_length (Nat.le_of_lt hm)] at hbefore ⊢
        rwa [← opensCode_append hmore]
    rw [markupLength, hend]
    rfl

end Scan

namespace Lexer

variable {lexer lexer' next : Lexer} {gap : List Char} {t : Token}

-- Outside of code, a lexer finds the tag that opens code, or markup in front of it.
theorem found_markup (hmode : lexer.mode = .markup) (hreads : lexer.Reads gap t next) :
    lexer.rest = t.text.toList ++ next.rest ∧
      (t.kind = .openTag ∧ t.text.toList.length = 5 ∧ markupLength lexer.rest = 0 ∨
        t.kind = .markup ∧ markupLength lexer.rest = t.text.toList.length) := by
  obtain rfl := hreads.bare hmode
  refine ⟨hreads.rest, ?_⟩
  have hfound := hreads.found
  rw [found, hmode] at hfound
  dsimp only at hfound
  split at hfound
  · obtain ⟨hkind, hlength⟩ := Found.token.inj hfound
    exact .inl ⟨hkind.symm, hlength.symm, ‹_›⟩
  · obtain ⟨hkind, hlength⟩ := Found.token.inj hfound
    exact .inr ⟨hkind.symm, by omega⟩

-- Behind markup, what opens code is looked for again.
theorem markupLength_of_markup (hmode : lexer.mode = .markup) (hreads : lexer.Reads gap t next)
    (hkind : t.kind = .markup) :
    markupLength (t.text.toList ++ next.rest) = t.text.toList.length ∧ next.mode = .markup := by
  have hbehind : next.mode = .markup := by
    rw [hreads.mode, hmode, hkind]
    rfl
  obtain ⟨hsplit, hfound⟩ := found_markup hmode hreads
  rw [hsplit] at hfound
  exact ⟨by simpa [hkind] using hfound, hbehind⟩

-- Where code opens, it finds the tag.
theorem openTag_of_opens (hmode : lexer.mode = .markup) (hreads : lexer.Reads gap t next)
    (hopens : lexer.rest = [] ∨ opensCode lexer.rest = true) :
    t.kind = .openTag ∧ t.text.toList.length = 5 := by
  have hpos := found_pos hreads.found
  obtain ⟨hsplit, ⟨hkind, hfive, -⟩ | ⟨-, hlength⟩⟩ := found_markup hmode hreads
  · exact ⟨hkind, hfive⟩
  · rcases hopens with hnil | hopens
    · rw [hnil] at hsplit
      have hzero := congrArg List.length hsplit
      rw [List.length_nil, List.length_append] at hzero
      omega
    · rw [markupLength_of_opensCode hopens] at hlength
      omega

-- Where code opens, the reformatted text opens code too.
theorem take_reformat (hmode : lexer.mode = .markup)
    (hrest : lexer.rest = [] ∨ opensCode lexer.rest = true) :
    (reformat .markup lexer.tokens.1 lexer.rest).take 5 = lexer.rest.take 5 := by
  cases htokens : lexer.tokens.1 with
  | nil => rfl
  | cons u later =>
      obtain ⟨next, hnext, -⟩ := next?_of_tokens htokens
      obtain ⟨gap, hreads⟩ := next?_reads hnext
      have hfive := (openTag_of_opens hmode hreads hrest).2
      rw [reformat, List.take_left' hfive, (found_markup hmode hreads).1, List.take_left' hfive]

-- Outside of code, another lexer in front of the same token finds it too. Behind markup it has to
-- see the same tag.
theorem found_markup_append {other : List Char} (hcode : lexer.mode = .markup)
    (hreads : lexer.Reads gap t next) (hmode : lexer'.mode = lexer.mode)
    (hrest : lexer'.rest = t.text.toList ++ other)
    (hother : t.kind = .markup → next.rest.take 5 = other.take 5) :
    lexer'.found = .token t.kind t.text.toList.length := by
  have hpos := found_pos hreads.found
  obtain ⟨hsplit, hfound⟩ := found_markup hcode hreads
  rw [found, hmode, hcode]
  rcases hfound with ⟨hkind, hfive, hzero⟩ | ⟨hkind, hlength⟩
  · have hopens : opensCode lexer.rest = true := by
      cases hlexer : lexer.rest with
      | nil =>
          have hnil := congrArg List.length (hsplit.symm.trans hlexer)
          rw [List.length_append, List.length_nil] at hnil
          omega
      | cons c rest => exact opensCode_of_markupLength (hlexer ▸ hzero)
    have hopens' : opensCode lexer'.rest = true := by
      rw [opensCode, hsplit, List.take_left' hfive] at hopens
      rwa [opensCode, hrest, List.take_left' hfive]
    rw [markupLength_of_opensCode hopens', hkind, hfive]
  · rw [hsplit] at hlength
    have hsame := markupLength_append hlength (hother hkind)
    obtain ⟨n, hn⟩ := Nat.exists_eq_succ_of_ne_zero (Nat.ne_of_gt hpos)
    rw [hrest, hsame, hkind, hn]

-- So does the lexer of the reformatted text.
theorem found_reformat_markup (hcode : lexer.mode = .markup) (hreads : lexer.Reads gap t next)
    (hmode : lexer'.mode = lexer.mode)
    (hrest : lexer'.rest = t.text.toList ++ reformat next.mode next.tokens.1 next.rest) :
    lexer'.found = .token t.kind t.text.toList.length := by
  refine found_markup_append hcode hreads hmode hrest fun hkind => ?_
  obtain ⟨hlength, hnext⟩ := markupLength_of_markup hcode hreads hkind
  rw [hnext]
  exact (take_reformat hnext (opens_of_markupLength hlength)).symm

-- In code, the token of a lexer is the same in front of the reformatted text.
theorem code_reformat (hcode : lexer.mode = .code) (hreads : lexer.Reads gap t next) :
    Scan.code (t.text.toList ++ reformat next.mode next.tokens.1 next.rest) =
      .token t.kind t.text.toList.length := by
  have hfound := hreads.code hcode
  by_cases hkind : t.kind = .closeTag
  · rw [hkind] at hfound ⊢
    rw [text_of_closeTag hfound]
    rfl
  · have hnext : next.mode = .code := by rw [hreads.mode, hcode, Mode.behind, if_neg hkind]
    rw [hnext]
    cases next.tokens.1 with
    | nil => exact hfound
    | cons u later => exact code_append_break hfound _

-- The lexer of the reformatted text reads the same token.
theorem next?_reformat (hnext : lexer.next? = some (.ok (t, next))) (hmode : lexer'.mode = lexer.mode)
    (hrest : lexer'.rest = reformat lexer.mode lexer.tokens.1 lexer.rest) :
    ∃ (t' : Token) (next' : Lexer), lexer'.next? = some (.ok (t', next')) ∧ t'.face = t.face ∧
      next'.mode = next.mode ∧ next'.rest = reformat next.mode next.tokens.1 next.rest := by
  obtain ⟨gap, hreads⟩ := next?_reads hnext
  have hne : t.text.toList ≠ [] := List.length_pos_iff.1 (found_pos hreads.found)
  rw [tokens_of_next? hnext] at hrest
  cases hcode : lexer.mode with
  | markup =>
      have hdrop : lexer.rest.drop t.text.toList.length = next.rest := by
        rw [(found_markup hcode hreads).1, List.drop_left]
      rw [hcode, reformat, hdrop, ← hcode, ← hreads.mode] at hrest
      have hgap : lexer'.rest.drop lexer'.gap =
          t.text.toList ++ reformat next.mode next.tokens.1 next.rest := by
        rw [Lexer.gap, hmode, hcode, hrest]
        rfl
      obtain ⟨t', next', hnext', hkind, htext, hmode', hrest'⟩ :=
        next?_of_found hgap hne (found_reformat_markup hcode hreads hmode hrest)
      refine ⟨t', next', hnext', Prod.ext hkind (htext.trans String.ofList_toList), ?_, hrest'⟩
      rw [hmode', hmode, hreads.mode]
  | code =>
      have hrun : run isSpace lexer.rest = gap.length := by
        rw [← hreads.gap_eq, Lexer.gap, hcode]
      have hdrop : lexer.rest.drop (run isSpace lexer.rest + t.text.toList.length) = next.rest := by
        rw [hrun, ← List.drop_drop, hreads.rest, List.drop_left, List.drop_left]
      rw [hcode, reformat, hdrop, ← hcode, ← hreads.mode] at hrest
      have hbreak : lexer'.rest = ['\n'] ++
          (t.text.toList ++ reformat next.mode next.tokens.1 next.rest) := hrest
      have hvisible : headIs (!isSpace ·) t.text.toList = true := by
        obtain ⟨c, text, htext⟩ := List.exists_cons_of_ne_nil hne
        have hc := hreads.visible hcode
        rw [htext] at hc ⊢
        simpa [headIs] using hc
      obtain ⟨t', next', hnext', hkind, htext, hmode', hrest'⟩ :=
        next?_written (hmode.trans hcode) hbreak rfl hvisible (code_reformat hcode hreads)
      refine ⟨t', next', hnext', Prod.ext hkind (htext.trans String.ofList_toList), ?_, hrest'⟩
      rw [hmode', hreads.mode, hcode]

-- A lexer reads to its end, and another one stands in front of the reformatted text.
structure Reformats (lexer lexer' : Lexer) : Prop where
  mode : lexer'.mode = lexer.mode
  rest : lexer'.rest = reformat lexer.mode lexer.tokens.1 lexer.rest
  ends : lexer.tokens.2 = none

theorem alike_reformats : Alike Reformats where
  ended := by
    rintro lexer lexer' ⟨hmode, hrest, -⟩ hnext
    have hrest : lexer'.rest = lexer.rest := by
      rw [hrest, tokens_of_none hnext]
      cases lexer.mode <;> rfl
    have hdrop := next?_eq_none.1 hnext
    rw [gap, ← hmode, ← hrest] at hdrop
    exact next?_eq_none.2 hdrop
  refused := by
    rintro lexer lexer' e ⟨-, -, hend⟩ hnext
    rw [tokens_of_error hnext] at hend
    cases hend
  read := by
    rintro lexer lexer' t next ⟨hmode, hrest, hend⟩ hnext
    obtain ⟨t', next', hnext', hface, hmode', hrest'⟩ := next?_reformat hnext hmode hrest
    rw [tokens_of_next? hnext] at hend
    exact ⟨t', next', hnext', hface, hmode', hrest', hend⟩

end Lexer

-- A source that can be read can be reformatted.
theorem tokenize_reformatted {source : String} (h : (tokenize source).2 = none) :
    (tokenize (reformatted source)).1.map Token.face = (tokenize source).1.map Token.face ∧
      (tokenize (reformatted source)).2 = none := by
  rw [tokenize_eq] at h
  rw [tokenize_eq, tokenize_eq]
  have hreformats : (Lexer.ofSource source).Reformats (.ofSource (reformatted source)) := by
    refine ⟨rfl, ?_, h⟩
    simp only [Lexer.ofSource, reformatted, tokenize_eq, String.toList_ofList]
  obtain ⟨hfaces, hending⟩ := Lexer.alike_reformats.tokens hreformats
  rw [h] at hending
  exact ⟨hfaces, Option.not_isSome_iff_eq_none.1 (Bool.eq_false_iff.1 hending)⟩

-- Numbers, points and a heredoc label keep apart, and the text outside of code stays as it is.
theorem tokenize_reformatted_label :
    (tokenize "<?php $a=1.5.<<<A\n b\nA;?>\n<p><?PHP 1e+2").2 = none ∧
    reformatted "<?php $a=1.5.<<<A\n b\nA;?>\n<p><?PHP 1e+2" =
      "<?php\n$a\n=\n1.5\n.\n<<<A\n b\nA\n;\n?>\n<p><?PHP\n1e+2" ∧
    (tokenize (reformatted "<?php $a=1.5.<<<A\n b\nA;?>\n<p><?PHP 1e+2")).1.map Token.face =
      (tokenize "<?php $a=1.5.<<<A\n b\nA;?>\n<p><?PHP 1e+2").1.map Token.face ∧
    (tokenize (reformatted "<?php $a=1.5.<<<A\n b\nA;?>\n<p><?PHP 1e+2")).2 = none := by
  have hread : (tokenize "<?php $a=1.5.<<<A\n b\nA;?>\n<p><?PHP 1e+2").2 = none := by decide +kernel
  exact ⟨hread, by decide +kernel, tokenize_reformatted hread⟩

end Census
