import Census.Proofs.Token.CloseTag

namespace Census

open Text Scan

variable {source : String} {passed later : List Token} {t u : Token}

namespace TokenKind

-- The kinds of tokens that are read in code. The tag that closes code is one of them.
def isCode (kind : TokenKind) : Bool := kind ≠ .markup && kind ≠ .openTag

theorem isCode_eq_false {kind : TokenKind} : kind.isCode = false ↔ kind = .markup ∨ kind = .openTag := by
  simp [isCode, -not_and, Decidable.or_iff_not_imp_left]

end TokenKind

theorem Mode.eq_markup {mode : Mode} : mode = .markup ↔ mode ≠ .code := by
  cases mode <;> simp

theorem Pattern.isCode_kind (p : Pattern) : p.kind.isCode = true := by
  cases p with
  | opener o => cases o <;> rfl
  | _ => rfl

namespace Lexer

variable {lexer lexer' next : Lexer} {gap : List Char}

theorem Reads.isCode (h : lexer.Reads gap t next) : t.kind.isCode = true ↔ lexer.mode = .code := by
  cases hmode : lexer.mode with
  | markup =>
      obtain ⟨-, ⟨hkind, -⟩ | ⟨hkind, -⟩⟩ := found_markup hmode h <;> simp [hkind, TokenKind.isCode]
  | code =>
      obtain ⟨p, -, -, -, -, hkind, -⟩ := longest_of_code (h.code hmode)
      simpa [← hkind] using p.isCode_kind

-- Behind a token of code, code goes on up to the tag that closes it. Behind other tokens, it begins
-- with the tag that opens it.
theorem Reads.mode_next (h : lexer.Reads gap t next) :
    next.mode = .code ↔ t.kind = .openTag ∨ t.kind.isCode = true ∧ t.kind ≠ .closeTag := by
  rw [h.isCode, h.mode]
  have hcode := h.isCode
  cases hmode : lexer.mode with
  | markup => by_cases hopen : t.kind = .openTag <;> simp [Mode.behind, hopen]
  | code =>
      have hopen : t.kind ≠ .openTag := by
        intro hopen
        simp [hopen, hmode, TokenKind.isCode] at hcode
      by_cases hclose : t.kind = .closeTag <;> simp [Mode.behind, hopen, hclose]

theorem Reads.markup_next (h : lexer.Reads gap t next) (hkind : t.kind = .closeTag) :
    next.mode = .markup :=
  Mode.eq_markup.2 (mt h.mode_next.1 (by simp [hkind]))

theorem Reads.isCode_of_markup (h : lexer.Reads gap t next) (hmode : lexer.mode = .markup) :
    t.kind.isCode = false :=
  Bool.eq_false_iff.2 (mt h.isCode.1 (Mode.eq_markup.1 hmode))

-- Up to the tag that closes code, there is nothing else but code.
theorem code_up_to_closeTag {block rest : List Token} (hmode : lexer.mode = .code)
    (htokens : lexer.tokens.1 = block ++ rest) (hblock : ∀ u ∈ block, u.kind ≠ .closeTag) :
    ∀ u ∈ block, u.kind.isCode = true := by
  induction block generalizing lexer with
  | nil => simp
  | cons t block ih =>
      obtain ⟨next, hnext, hrest, -⟩ := next?_of_tokens htokens
      obtain ⟨gap, hreads⟩ := next?_reads hnext
      obtain ⟨hclose, hothers⟩ := List.forall_mem_cons.1 hblock
      have hkind := hreads.isCode.2 hmode
      have hcode := hreads.mode_next.2 (.inr ⟨hkind, hclose⟩)
      exact List.forall_mem_cons.2 ⟨hkind, ih hcode hrest.symm hothers⟩

-- Markup has no tag that opens code in it, and that tag follows it.
theorem Reads.markup (h : lexer.Reads gap t next) (hkind : t.kind = .markup) :
    (∀ part, part <:+: t.text.toList → part.map Char.toLower ≠ "<?php".toList) ∧
      ∀ u ∈ next.tokens.1.head?, u.kind = .openTag := by
  have hmode : lexer.mode = .markup := Mode.eq_markup.2 (mt h.isCode.2 (by simp [hkind, TokenKind.isCode]))
  obtain ⟨hlength, hbehind⟩ := markupLength_of_markup hmode h hkind
  refine ⟨lacks_openTag hlength, fun u hu => ?_⟩
  obtain ⟨later, htokens⟩ := List.head?_eq_some_iff.1 hu
  obtain ⟨last, hnext, -⟩ := next?_of_tokens htokens
  obtain ⟨gap, hreads⟩ := next?_reads hnext
  exact (openTag_of_opens hbehind hreads (opens_of_markupLength hlength)).1

-- Right behind a tag that closes code stands markup, or a tag that opens code.
theorem Reads.closeTag (h : lexer.Reads gap t next) (hkind : t.kind = .closeTag) {cs before : List Char}
    (hat : next.At cs before) :
    ∀ u ∈ next.tokens.1.head?, (u.kind = .markup ∨ u.kind = .openTag) ∧ u.StandsBehind cs before := by
  intro u hu
  have hmode := h.markup_next hkind
  obtain ⟨later, htokens⟩ := List.head?_eq_some_iff.1 hu
  obtain ⟨last, hnext, -⟩ := next?_of_tokens htokens
  obtain ⟨bare, hreads⟩ := next?_reads hnext
  obtain rfl := hreads.bare hmode
  have hstands := (hreads.stands _ _ hat).1
  rw [List.append_nil] at hstands
  exact ⟨TokenKind.isCode_eq_false.1 (hreads.isCode_of_markup hmode), hstands⟩

-- Lexers in front of the same text read alike, wherever they stand.
theorem alike_of_rest :
    Alike fun lexer lexer' => lexer'.mode = lexer.mode ∧ lexer'.rest = lexer.rest := by
  have same {lexer lexer' : Lexer} (h : lexer'.mode = lexer.mode ∧ lexer'.rest = lexer.rest) :
      lexer'.rest.drop lexer'.gap = lexer.rest.drop lexer.gap ∧ lexer'.found = lexer.found := by
    simp only [gap, found, h.1, h.2, true_and]
  refine ⟨?ended, ?refused, ?read⟩
  case ended =>
    intro lexer lexer' h hnext
    rw [next?_eq_none] at hnext ⊢
    rw [(same h).1, hnext]
  case refused =>
    intro lexer lexer' e h hnext
    obtain ⟨hdrop, hfound⟩ := same h
    cases hcs : lexer.rest.drop lexer.gap with
    | nil =>
        rw [next?_of_nil hcs] at hnext
        cases hnext
    | cons c cs =>
        have hnext' := next?_of_cons (hdrop.trans hcs)
        rw [next?_of_cons hcs] at hnext
        rw [hfound] at hnext'
        cases hfind : lexer.found with
        | token kind n =>
            rw [hfind] at hnext
            cases hnext
        | unterminated closer =>
            rw [hfind] at hnext'
            exact ⟨_, hnext'⟩
        | unexpected =>
            rw [hfind] at hnext'
            exact ⟨_, hnext'⟩
  case read =>
    intro lexer lexer' t next h hnext
    obtain ⟨hdrop, hfound⟩ := same h
    obtain ⟨gap, hreads⟩ := next?_reads hnext
    have hrest : lexer.rest.drop lexer.gap = t.text.toList ++ next.rest := by
      rw [hreads.gap_eq, hreads.rest, List.drop_left]
    obtain ⟨t', next', hnext', hkind, htext, hmode', hrest'⟩ := next?_of_found (hdrop.trans hrest)
      (List.length_pos_iff.1 (found_pos hreads.found)) (hfound.trans hreads.found)
    refine ⟨t', next', hnext', Prod.ext hkind (htext.trans String.ofList_toList), ?_, hrest'⟩
    rw [hmode', h.1, hreads.mode]

end Lexer

-- How a token stands among those in front of it and behind it, with the text on either side.
structure Alternates (source : String) (before : List Char) (passed : List Token) (t : Token)
    (later : List Token) (after : List Char) : Prop where
  markup : t.kind = .markup →
    (∀ part, part <:+: t.text.toList → part.map Char.toLower ≠ "<?php".toList) ∧
      ∀ u ∈ later.head?, u.kind = .openTag
  openTag : t.kind = .openTag → ∀ u ∈ passed.getLast?, u.kind = .markup ∨ u.kind = .closeTag
  closeTag : t.kind = .closeTag → ∀ u ∈ later.head?, (u.kind = .markup ∨ u.kind = .openTag) ∧
    u.start = t.stop ∧ u.StandsBehind source.toList (before ++ t.text.toList)
  block : t.kind = .openTag → ∀ block rest, later = block ++ rest →
    (∀ u ∈ block, u.kind ≠ .closeTag) → ∀ u ∈ block, u.kind.isCode = true
  lineComment : t.kind = .lineComment → (∀ s ∈ lineEnds, ¬s.toList <:+: t.text.toList) ∧
    (after = [] ∨ ∃ s ∈ lineEnds, s.toList <+: after)
  -- In code, the tag that closes code is read as such, but within a literal or a comment between
  -- marks, and behind a question mark, with which its own makes an operator.
  closes : t.kind.isCode = true → ∀ front rest,
    t.text.toList ++ after = front ++ ("?>".toList ++ rest) → front.length < t.text.toList.length →
      t.kind = .closeTag ∧ front = [] ∨
        (t.kind = .string ∨ t.kind = .blockComment ∨ t.kind = .docComment) ∧
          front.length + 2 < t.text.toList.length ∨
        t.kind = .symbol .coalesce ∧ front = ['?']
  resumes : t.kind = .closeTag →
    (tokenize (String.ofList after)).1.map Token.face = later.map Token.face ∧
      (tokenize (String.ofList after)).2.isSome = (tokenize source).2.isSome

-- The lexer that reads a token of a source stands behind the token in front of it.
theorem tokenize_reads (h : (tokenize source).1 = passed ++ t :: later) :
    ∃ (lexer : Lexer) (read gap : List Char) (next : Lexer), lexer.At source.toList read ∧
      lexer.Reads gap t next ∧ next.tokens = (later, (tokenize source).2) ∧
      passed.getLast?.elim (read = []) fun u => u.stop = Token.offset (utf8Size read) := by
  obtain ⟨lexer, read, hat, -, htokens, hstop⟩ := tokenize_append h
  obtain ⟨next, hnext, hlater, hending⟩ := Lexer.next?_of_tokens (congrArg Prod.fst htokens)
  obtain ⟨gap, hreads⟩ := Lexer.next?_reads hnext
  rw [htokens] at hending
  exact ⟨lexer, read, gap, next, hat, hreads, Prod.ext hlater.symm hending.symm, hstop⟩

-- Code is opened behind markup, or where it has just been closed.
theorem kind_in_front_of_openTag (h : (tokenize source).1 = passed ++ u :: t :: later)
    (hkind : t.kind = .openTag) : u.kind = .markup ∨ u.kind = .closeTag := by
  obtain ⟨_, _, _, lexer, _, hreads, htokens, -⟩ := tokenize_reads h
  obtain ⟨_, hnext, -⟩ := Lexer.next?_of_tokens (congrArg Prod.fst htokens)
  obtain ⟨_, hopens⟩ := Lexer.next?_reads hnext
  have hmode := mt hopens.isCode.2 (by simp [hkind, TokenKind.isCode])
  rw [hreads.mode_next, not_or, not_and_not_right] at hmode
  cases hcode : u.kind.isCode with
  | true => exact .inr (hmode.2 hcode)
  | false => exact (TokenKind.isCode_eq_false.1 hcode).imp_right fun hopen => absurd hopen hmode.1

-- Markup and code alternate. Nothing but space stands between the tokens, so all text up to an
-- error belongs to one of them.
theorem tokenize_alternates (h : (tokenize source).1 = passed ++ t :: later) :
    ∃ read gap after, source.toList = read ++ (gap ++ (t.text.toList ++ after)) ∧
      (passed.getLast?.elim (read = []) fun u => u.stop = Token.offset (utf8Size read)) ∧
      gap.all isSpace = true ∧ t.StandsBehind source.toList (read ++ gap) ∧
      Alternates source (read ++ gap) passed t later after := by
  obtain ⟨lexer, read, gap, next, hat, hreads, htokens, hstop⟩ := tokenize_reads h
  obtain ⟨hstands, hbehind⟩ := hreads.stands _ _ hat
  refine ⟨read, gap, next.rest, by rw [hat.split, hreads.rest], hstop, hreads.space, hstands, ?markup,
    ?openTag, ?closeTag, ?block, ?lineComment, ?closes, ?resumes⟩
  case markup =>
    intro hkind
    have hmarkup := hreads.markup hkind
    rwa [htokens] at hmarkup
  case openTag =>
    intro hkind u hu
    obtain ⟨front, rfl⟩ := List.getLast?_eq_some_iff.1 hu
    rw [List.append_assoc] at h
    exact kind_in_front_of_openTag h hkind
  case closeTag =>
    intro hkind u hu
    obtain ⟨hkind', hu'⟩ := hreads.closeTag hkind hbehind u (by rwa [htokens])
    exact ⟨hkind', hu'.start.trans hstands.stop.symm, hu'⟩
  case block =>
    intro hkind block rest hlater hblock
    have hmode : next.mode = .code := hreads.mode_next.2 (.inl hkind)
    exact Lexer.code_up_to_closeTag hmode ((congrArg Prod.fst htokens).trans hlater) hblock
  case lineComment =>
    intro hkind
    have hcode := hreads.code (hreads.isCode.1 (by rw [hkind]; rfl))
    rw [hkind] at hcode
    exact lineEnds_of_lineComment hcode
  case closes =>
    intro hkind front rest hsplit hlt
    exact closeTag_in_code (hreads.code (hreads.isCode.1 hkind)) hsplit hlt
  case resumes =>
    intro hkind
    have hsame : (Lexer.ofSource (String.ofList next.rest)).mode = next.mode ∧
        (Lexer.ofSource (String.ofList next.rest)).rest = next.rest :=
      ⟨(hreads.markup_next hkind).symm, String.toList_ofList⟩
    have halike := Lexer.alike_of_rest.tokens hsame
    rwa [← tokenize_eq, htokens] at halike

-- The tag ends a line comment, but neither a string nor a comment between marks.
theorem tokenize_alternates_comments : ∃ passed t later,
    (tokenize "<p><?php #a?>b<?PHP '?>' /*?>*/?>").1 = passed ++ t :: later ∧
    t.face = (.closeTag, "?>") ∧ passed.map Token.face =
      [(.markup, "<p>"), (.openTag, "<?php"), (.lineComment, "#a")] ∧
    later.map Token.face = [(.markup, "b"), (.openTag, "<?PHP"), (.string, "'?>'"),
      (.blockComment, "/*?>*/"), (.closeTag, "?>")] ∧
    ∃ read gap after, "<p><?php #a?>b<?PHP '?>' /*?>*/?>".toList =
        read ++ (gap ++ (t.text.toList ++ after)) ∧
      Alternates "<p><?php #a?>b<?PHP '?>' /*?>*/?>" (read ++ gap) passed t later after := by
  have htokens : (tokenize "<p><?php #a?>b<?PHP '?>' /*?>*/?>").1 =
      (tokenize "<p><?php #a?>b<?PHP '?>' /*?>*/?>").1.take 3 ++
        ⟨.closeTag, "?>", 11, 13, ⟨⟨1, 12⟩, ⟨1, 13⟩⟩⟩ ::
        (tokenize "<p><?php #a?>b<?PHP '?>' /*?>*/?>").1.drop 4 := by decide +kernel
  obtain ⟨read, gap, after, hsplit, -, -, -, halternates⟩ := tokenize_alternates htokens
  exact ⟨_, _, _, htokens, rfl, by decide +kernel, by decide +kernel, read, gap, after, hsplit,
    halternates⟩

-- A question mark in front of the tag makes an operator with that of the tag, and code goes on.
theorem closeTag_behind_question :
    "<?php 1 ??> b".toList = "<?php 1 ?".toList ++ ("?>".toList ++ " b".toList) ∧
    (tokenize "<?php 1 ??> b").1.map Token.face = [(.openTag, "<?php"), (.integer, "1"),
      (.symbol .coalesce, "??"), (.symbol .greater, ">"), (.identifier, "b")] ∧
    (tokenize "<?php 1 ??> b").2 = none := by decide +kernel

end Census
