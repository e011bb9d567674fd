import Census.Proofs.Token.CloseTag

namespace Census

open Text Scan

variable {cs ds text more other : List Char} {kind : TokenKind}

namespace Position

-- The position of a character does not depend on what follows it.
theorem ofIndex_of_isPrefix (h : cs <+: ds) {i : Nat} (hi : i < cs.length) :
    ofIndex cs i = ofIndex ds i := by
  obtain ⟨rest, rfl⟩ := h
  induction i with
  | zero => rfl
  | succ i ih =>
      have hhere := List.getElem?_eq_getElem (Nat.lt_of_succ_lt hi)
      have hwhole : (cs ++ rest)[i]? = _ := (List.getElem?_append_left (Nat.lt_of_succ_lt hi)).trans hhere
      rw [ofIndex_succ hhere, ofIndex_succ hwhole, ih (Nat.lt_of_succ_lt hi),
        List.getElem?_append_left hi]

theorem ofIndex_lt_succ {i : Nat} (h : i < cs.length) : ofIndex cs i < ofIndex cs (i + 1) := by
  rw [ofIndex_succ (List.getElem?_eq_getElem h)]
  exact lt_after _ _ _

theorem ofIndex_lt {i j : Nat} (hij : i < j) (h : j ≤ cs.length) :
    ofIndex cs i < ofIndex cs j := by
  induction hij with
  | refl => exact ofIndex_lt_succ h
  | step hle ih => exact lt_trans (ih (Nat.le_of_succ_le h)) (ofIndex_lt_succ h)

theorem ofIndex_inj {i j : Nat} (hi : i ≤ cs.length) (hj : j ≤ cs.length)
    (h : ofIndex cs i = ofIndex cs j) : i = j := by
  rcases Nat.lt_trichotomy i j with hlt | heq | hlt
  · exact absurd (h ▸ ofIndex_lt hlt hj) (lt_irrefl _)
  · exact heq
  · exact absurd (h ▸ ofIndex_lt hlt hi) (lt_irrefl _)

end Position

namespace Token.StandsBehind

variable {t u : Token} {before after before' after' : List Char}

-- A token stands at one place of a text only.
theorem unique (h : t.StandsBehind cs before) (h' : t.StandsBehind cs before')
    (hsplit : cs = before ++ after) (hsplit' : cs = before' ++ after') : before = before' := by
  have hle := congrArg List.length hsplit
  have hle' := congrArg List.length hsplit'
  rw [List.length_append] at hle hle'
  have hstart := congrArg Span.start (h.span.symm.trans h'.span)
  have hlength := Position.ofIndex_inj (by omega) (by omega) hstart
  exact List.append_inj_left (hsplit.symm.trans hsplit') hlength

-- It is the same token if the text ends behind it.
theorem eq_of_isPrefix (h : t.StandsBehind cs before) (h' : u.StandsBehind ds before)
    (hkind : u.kind = t.kind) (htext : u.text = t.text) (hwithin : cs <+: ds)
    (hle : before.length + t.text.toList.length ≤ cs.length) : u = t := by
  have hpos := List.length_pos_iff.2 h.nonempty
  obtain ⟨kind, text, start, stop, span⟩ := t
  obtain ⟨kind', text', start', stop', span'⟩ := u
  obtain rfl : kind' = kind := hkind
  obtain rfl : text' = text := htext
  obtain rfl : start = start' := h.start.trans h'.start.symm
  obtain rfl : stop = stop' := h.stop.trans h'.stop.symm
  obtain rfl : span = span' := by
    refine h.span.trans (Eq.trans ?_ h'.span.symm)
    have hle : before.length + text'.toList.length ≤ cs.length := hle
    have hpos : 0 < text'.toList.length := hpos
    rw [Position.ofIndex_of_isPrefix hwithin (by omega), Position.ofIndex_of_isPrefix hwithin (by omega)]
  rfl

end Token.StandsBehind

namespace Scan

theorem endsLine_of_isPrefix (h : other <+: more) (hother : endsLine other = true) :
    endsLine more = true := by
  obtain ⟨s, hs, hfront⟩ := endsLine_iff.1 hother
  exact endsLine_iff.2 ⟨s, hs, hfront.trans h⟩

-- A line comment does not end sooner for a shorter text behind it.
theorem lineCommentLength_of_isPrefix {part : List Char}
    (h : lineCommentLength (part ++ more) = part.length) (hwithin : other <+: more)
    (hend : other = [] ∨ endsLine other = true) :
    lineCommentLength (part ++ other) = part.length := by
  have hbefore (m : Nat) (hm : m < part.length) : endsLine ((part ++ other).drop m) = false := by
    have hmore : endsLine ((part ++ more).drop m) = false := seek_before (Nat.lt_of_lt_of_eq hm h.symm)
    rw [List.drop_append_of_le_length (Nat.le_of_lt hm)] at hmore ⊢
    refine Bool.eq_false_iff.2 fun hends => ?_
    rw [endsLine_of_isPrefix ((List.prefix_append_right_inj _).2 hwithin) hends] at hmore
    cases hmore
  rw [lineCommentLength]
  change (seek endsLine (part ++ other)).getD (part ++ other).length = part.length
  rcases hend with rfl | hend
  · rw [List.append_nil] at hbefore ⊢
    cases hseek : seek endsLine part with
    | none => rfl
    | some m =>
        have hholds := seek_holds hseek
        rw [hbefore m (seek_lt_length hseek)] at hholds
        cases hholds
  · have hseek : seek endsLine (part ++ other) = some part.length := by
      refine seek_eq_some.2 ⟨?_, by rwa [List.drop_left], hbefore⟩
      have hpos : 0 < other.length := List.length_pos_iff.2 (by rintro rfl; cases hend)
      rw [List.length_append]
      omega
    rw [hseek]
    rfl

-- A token of code is the same token if the text ends sooner behind it. Behind a line comment, what
-- ends the line has to be there.
theorem code_of_isPrefix (h : code (text ++ more) = .token kind text.length) (hwithin : other <+: more)
    (hend : kind = .lineComment → other = [] ∨ endsLine other = true) :
    code (text ++ other) = .token kind text.length := by
  refine code_append h (fun q part hq => ⟨hq.mem, hq.nonempty, ?_⟩) (fun hname => ?_)
    fun hkind part hpart => lineCommentLength_of_isPrefix hpart hwithin (hend hkind)
  · exact hq.front.trans ((List.prefix_append_right_inj _).2 hwithin)
  · obtain ⟨rest, rfl⟩ := hwithin
    cases other with
    | nil => rfl
    | cons c other => exact hname

end Scan

namespace Lexer

variable {lexer lexer' next : Lexer} {gap : List Char} {t : Token}

-- A text begins with the token that a lexer reads next.
def Shows (lexer : Lexer) (cs : List Char) : Prop :=
  ∃ gap t next rest, lexer.Reads gap t next ∧ cs = gap ++ (t.text.toList ++ rest)

theorem Shows.ne_nil (h : lexer.Shows other) : other ≠ [] := by
  obtain ⟨gap, t, next, rest, hreads, rfl⟩ := h
  have hpos := found_pos hreads.found
  intro hnil
  have hlength := congrArg List.length hnil
  simp only [List.length_append, List.length_nil] at hlength
  omega

-- What ends a line is space, or the next token.
theorem Shows.endsLine (h : lexer.Shows other) (hmode : lexer.mode = .code)
    (hwithin : other <+: lexer.rest) (hends : Scan.endsLine lexer.rest = true) :
    Scan.endsLine other = true := by
  obtain ⟨s, hs, more, hmore⟩ := endsLine_iff.1 hends
  have hne := h.ne_nil
  have short (hshort : s.toList.length = 1) : Scan.endsLine other = true := by
    refine endsLine_iff.2 ⟨s, hs, List.prefix_of_prefix_length_le ⟨more, hmore⟩ hwithin ?_⟩
    rw [hshort]
    exact List.length_pos_iff.2 hne
  simp only [lineEnds, List.mem_cons, List.not_mem_nil, or_false] at hs
  rcases hs with rfl | rfl | rfl
  · exact short rfl
  · exact short rfl
  · obtain ⟨gap, u, later, rest, hreads, rfl⟩ := h
    have hrest : "?>".toList ++ more = gap ++ (u.text.toList ++ later.rest) := hmore.trans hreads.rest
    have hbare : gap = [] := by
      cases gap with
      | nil => rfl
      | cons c gap =>
          obtain rfl : '?' = c := (List.cons.inj hrest).1
          cases (Bool.and_eq_true_iff.1 hreads.space).1
    subst hbare
    rw [List.nil_append] at hrest
    have hfound := hreads.code hmode
    rw [← hrest] at hfound
    have htag : Scan.code ("?>".toList ++ more) = .token .closeTag 2 := rfl
    have hlength : 2 = u.text.toList.length := (Found.token.inj (htag.symm.trans hfound)).2
    have htext : "?>".toList = u.text.toList := (List.append_inj hrest hlength).1
    rw [← htext]
    rfl

-- Behind a token, the text may end anywhere behind the next one, or at once behind a token of code.
theorem Reads.found_of_isPrefix (h : lexer.Reads gap t next) (hmode : lexer'.mode = lexer.mode)
    (hrest : lexer'.rest = gap ++ (t.text.toList ++ other)) (hwithin : other <+: next.rest)
    (hother : other = [] ∧ t.kind ≠ .markup ∨ next.Shows other) :
    lexer'.gap = gap.length ∧ lexer'.found = .token t.kind t.text.toList.length := by
  have hne : t.text.toList ≠ [] := List.length_pos_iff.1 (found_pos h.found)
  cases hcode : lexer.mode with
  | markup =>
      obtain rfl := h.bare hcode
      refine ⟨by rw [Lexer.gap, hmode, hcode]; rfl, ?_⟩
      refine found_markup_append hcode h hmode hrest fun hkind => ?_
      obtain ⟨hlength, hnext⟩ := markupLength_of_markup hcode h hkind
      rcases hother with ⟨-, hnot⟩ | ⟨gap', u, later, rest, hreads, rfl⟩
      · exact absurd hkind hnot
      · have hfive := (openTag_of_opens hnext hreads (opens_of_markupLength hlength)).2
        obtain rfl := hreads.bare hnext
        rw [(found_markup hnext hreads).1, List.take_left' hfive, List.nil_append, List.take_left' hfive]
  | code =>
      have hvisible : headIs isSpace (t.text.toList ++ other) = false := by
        obtain ⟨c, text, htext⟩ := List.exists_cons_of_ne_nil hne
        have hc := h.visible hcode
        rw [htext] at hc ⊢
        exact hc
      have hgap : lexer'.gap = gap.length := by
        rw [Lexer.gap, hmode, hcode, hrest]
        exact run_append h.space hvisible
      refine ⟨hgap, ?_⟩
      rw [Lexer.found, hmode, hcode, hgap, hrest, List.drop_left]
      refine code_of_isPrefix (h.code hcode) hwithin fun hkind => ?_
      rcases hother with ⟨hnil, -⟩ | hshows
      · exact .inl hnil
      · have hnext : next.mode = .code := by
          rw [h.mode, hcode, hkind]
          rfl
        have hfound := h.code hcode
        rw [hkind] at hfound
        have hends := (lineComment_ends hfound).2.resolve_left fun hnil =>
          hshows.ne_nil (List.prefix_nil.1 (hnil ▸ hwithin))
        exact .inr (hshows.endsLine hnext hwithin hends)

-- Such a text brings the same token.
theorem Reads.next?_of_isPrefix {cs ds before : List Char} (h : lexer.Reads gap t next)
    (hat : lexer.At cs before) (hat' : lexer'.At ds before) (hds : ds <+: cs)
    (hmode : lexer'.mode = lexer.mode) (hrest : lexer'.rest = gap ++ (t.text.toList ++ other))
    (hwithin : other <+: next.rest) (hother : other = [] ∧ t.kind ≠ .markup ∨ next.Shows other) :
    ∃ next', lexer'.next? = some (.ok (t, next')) ∧ next'.mode = next.mode ∧ next'.rest = other ∧
      next'.At ds (before ++ gap ++ t.text.toList) := by
  obtain ⟨hgap, hfound⟩ := h.found_of_isPrefix hmode hrest hwithin hother
  have hdrop : lexer'.rest.drop lexer'.gap = t.text.toList ++ other := by
    rw [hgap, hrest, List.drop_left]
  obtain ⟨t', next', hnext, hkind, htext, hmode', hrest'⟩ :=
    next?_of_found hdrop (List.length_pos_iff.1 (found_pos h.found)) hfound
  rw [String.ofList_toList] at htext
  obtain ⟨gap', hreads⟩ := next?_reads hnext
  obtain rfl : gap' = gap := by
    refine (List.append_inj (hreads.rest.symm.trans hrest) ?_).1
    rw [← hreads.gap_eq, hgap]
  obtain ⟨hstands, hbehind⟩ := hreads.stands ds before hat'
  have hsplit := congrArg List.length hat'.split
  rw [hrest] at hsplit
  simp only [List.length_append] at hsplit
  obtain rfl : t = t' := by
    refine hstands.eq_of_isPrefix (h.stands cs before hat).1 hkind.symm htext.symm hds ?_
    rw [htext, List.length_append]
    omega
  exact ⟨next', hnext, by rw [hmode', hmode, h.mode], hrest', hbehind⟩

-- By induction on the tokens in front of it: up to a token that is no markup, a lexer reads the same
-- where the text ends behind that token.
theorem tokens_until {cs before : List Char} {passed later : List Token}
    (hat : lexer.At cs before) (htokens : lexer.tokens.1 = passed ++ t :: later)
    (hkind : t.kind ≠ .markup) : ∃ read after, lexer.rest = read ++ (t.text.toList ++ after) ∧
      t.StandsBehind cs (before ++ read) ∧ lexer.Shows (read ++ t.text.toList) ∧
      ∀ lexer' : Lexer, lexer'.mode = lexer.mode → lexer'.rest = read ++ t.text.toList →
        lexer'.At (before ++ (read ++ t.text.toList)) before →
        lexer'.tokens = (passed ++ [t], none) := by
  induction passed generalizing lexer before with
  | nil =>
      obtain ⟨next, hnext, -⟩ := next?_of_tokens htokens
      obtain ⟨gap, hreads⟩ := next?_reads hnext
      have hstands := (hreads.stands cs before hat).1
      refine ⟨gap, next.rest, hreads.rest, hstands, ⟨gap, t, next, [], hreads, by simp⟩, ?_⟩
      intro lexer' hmode hrest hat'
      have hds : before ++ (gap ++ t.text.toList) <+: cs := by
        rw [hat.split, hreads.rest]
        exact ⟨next.rest, by simp⟩
      obtain ⟨next', hnext', -, hrest', -⟩ := hreads.next?_of_isPrefix hat hat' hds hmode
        (by rw [hrest, List.append_nil]) List.nil_prefix (.inl ⟨rfl, hkind⟩)
      rw [tokens_of_next? hnext', tokens_of_none (next?_of_nil (by rw [hrest', List.drop_nil]))]
      rfl
  | cons u passed ih =>
      obtain ⟨next, hnext, hlater, -⟩ := next?_of_tokens htokens
      obtain ⟨gap, hreads⟩ := next?_reads hnext
      have hbehind := (hreads.stands cs before hat).2
      obtain ⟨read, after, hrest, hstands, hshows, htokens'⟩ := ih hbehind hlater.symm
      refine ⟨gap ++ (u.text.toList ++ read), after, ?_, by simpa using hstands,
        ⟨gap, u, next, read ++ t.text.toList, hreads, by simp⟩, fun lexer' hmode hrest' hat' => ?_⟩
      · rw [hreads.rest, hrest]
        simp
      · have hds : before ++ (gap ++ (u.text.toList ++ read) ++ t.text.toList) <+: cs := by
          rw [hat.split, hreads.rest, hrest]
          exact ⟨after, by simp⟩
        have hwithin : read ++ t.text.toList <+: next.rest := by
          rw [hrest]
          exact ⟨after, by simp⟩
        obtain ⟨next', hnext', hmode', hrest'', hat''⟩ := hreads.next?_of_isPrefix hat hat' hds hmode
          (by simpa using hrest') hwithin (.inr hshows)
        rw [tokens_of_next? hnext', htokens' next' hmode' hrest'' (by simpa using hat'')]
        rfl

end Lexer

-- Up to a token that is no markup, the tokens of a source are those of the source cut off there.
theorem tokenize_until {source : String} {passed later : List Token} {t : Token}
    {read after : List Char} (h : (tokenize source).1 = passed ++ t :: later)
    (hkind : t.kind ≠ .markup) (hsplit : source.toList = read ++ (t.text.toList ++ after))
    (hstands : t.StandsBehind source.toList read) :
    tokenize (String.ofList (read ++ t.text.toList)) = (passed ++ [t], none) := by
  rw [tokenize_eq] at h ⊢
  obtain ⟨read', after', hrest, hstands', -, htokens⟩ :=
    Lexer.tokens_until (Lexer.at_ofSource source) h hkind
  obtain rfl : read' = read := hstands'.unique hstands hrest hsplit
  refine htokens _ rfl String.toList_ofList ?_
  have hat := Lexer.at_ofSource (String.ofList (read' ++ t.text.toList))
  rwa [String.toList_ofList] at hat

end Census
