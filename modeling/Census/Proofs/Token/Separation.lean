import Census.Proofs.Token.LongestMatch

namespace Census

open Text Scan

variable {cs text more other : List Char} {n : Nat}

namespace Scan

-- A text that is long enough shows what it begins with.
theorem startsWith_append {s : String} (h : s.toList.length ≤ text.length) (more : List Char) :
    startsWith s (text ++ more) = startsWith s text := by
  rw [Bool.eq_iff_iff, startsWith, startsWith, List.isPrefixOf_iff_prefix, List.isPrefixOf_iff_prefix]
  refine ⟨fun hfront => ?_, fun hfront => hfront.trans (List.prefix_append text more)⟩
  exact List.prefix_of_prefix_length_le hfront (List.prefix_append text more) h

-- What closes a comment does so whatever follows it.
theorem seek_startsWith_append {s : String} (h : seek (startsWith s) (text ++ more) = some n)
    (hle : n + s.toList.length ≤ text.length) (other : List Char) (hs : s.toList ≠ []) :
    seek (startsWith s) (text ++ other) = some n := by
  have hdrop (m : Nat) (hm : m ≤ n) (rest : List Char) :
      startsWith s ((text ++ rest).drop m) = startsWith s (text.drop m) := by
    rw [List.drop_append_of_le_length (by omega)]
    exact startsWith_append (by rw [List.length_drop]; omega) rest
  have hpos := List.length_pos_iff.2 hs
  obtain ⟨-, hfound, hbefore⟩ := seek_eq_some.1 h
  rw [hdrop n (Nat.le_refl n)] at hfound
  refine seek_eq_some.2 ⟨by rw [List.length_append]; omega, ?_, fun m hm => ?_⟩
  · rwa [hdrop n (Nat.le_refl n)]
  · have hm' := hbefore m hm
    rw [hdrop m (Nat.le_of_lt hm)] at hm'
    rwa [hdrop m (Nat.le_of_lt hm)]

-- A quoted text ends with its quote, whatever follows it.
theorem quotedLength_append {quote : Char} (hquote : isBreak quote = false)
    (h : quotedLength quote (text ++ more) = some n)
    (hle : n ≤ text.length) (other : List Char) : quotedLength quote (text ++ other) = some n := by
  induction text using quotedLength.induct quote generalizing n with
  | case1 =>
      have hpos := (firm_of_quotedLength hquote h).2
      exact absurd (Nat.le_zero.1 hle) hpos
  | case2 =>
      cases more with
      | nil => cases h
      | cons d more =>
          rw [List.singleton_append, quotedLength_pair] at h
          obtain ⟨m, hm, rfl⟩ := Option.map_eq_some_iff.1 h
          simp at hle
  | case3 c rest ih =>
      rw [List.cons_append, List.cons_append, quotedLength_pair] at h ⊢
      obtain ⟨m, hm, rfl⟩ := Option.map_eq_some_iff.1 h
      rw [ih hm (by simpa using hle)]
      rfl
  | case4 rest hq =>
      rw [List.cons_append, quotedLength_quote hq] at h ⊢
      exact h
  | case5 c rest hc hq ih =>
      rw [List.cons_append, quotedLength_other hc hq] at h ⊢
      obtain ⟨m, hm, rfl⟩ := Option.map_eq_some_iff.1 h
      rw [ih hm (by simpa using hle)]
      rfl

-- A line comment ends in front of a line feed, and does not end sooner for it.
theorem lineCommentLength_append (h : lineCommentLength (text ++ more) = text.length)
    (other : List Char) : lineCommentLength (text ++ '\n' :: other) = text.length := by
  have hend : seek (fun r => startsWith "\n" r || startsWith "\r" r || startsWith "?>" r)
      (text ++ '\n' :: other) = some text.length := by
    refine seek_eq_some.2 ⟨by simp, by rw [List.drop_left]; rfl, fun m hm => ?_⟩
    have hbefore := seek_before (Nat.lt_of_lt_of_eq hm h.symm)
    rw [List.drop_append_of_le_length (Nat.le_of_lt hm)] at hbefore ⊢
    obtain ⟨c, part, hpart⟩ := List.exists_cons_of_ne_nil (mt List.drop_eq_nil_iff.1 (Nat.not_le.2 hm))
    rw [hpart] at hbefore ⊢
    cases part with
    | nil =>
        have hshort (s : String) (hs : s.toList.length ≤ 1) (rest : List Char) :
            startsWith s ([c] ++ rest) = startsWith s [c] := startsWith_append hs rest
        have hclose : startsWith "?>" ([c] ++ '\n' :: other) = false := Bool.and_false ('?' == c)
        simp only [Bool.or_eq_false_iff] at hbefore ⊢
        rw [hshort _ (by decide), hshort _ (by decide)] at hbefore ⊢
        exact ⟨hbefore.1, hclose⟩
    | cons d part =>
        have hshort (s : String) (hs : s.toList.length ≤ 2) (rest : List Char) :
            startsWith s (c :: d :: part ++ rest) = startsWith s (c :: d :: part) :=
          startsWith_append (Nat.le_trans hs (by simp)) rest
        rw [hshort _ (by decide), hshort _ (by decide), hshort _ (by decide)] at hbefore ⊢
        exact hbefore
  rw [lineCommentLength, hend]
  rfl

-- What stands behind a line feed is not seen from in front of it.
theorem headIs_append_break {p : Char → Bool} (text rest other : List Char) :
    headIs p (text ++ '\n' :: rest) = headIs p (text ++ '\n' :: other) := by
  cases text <;> rfl

-- A beginning without line feeds ends in front of the first one.
theorem split_of_break {part rest : List Char} (h : text ++ '\n' :: more = part ++ rest)
    (hpart : '\n' ∉ part) : ∃ behind, text = part ++ behind ∧ rest = behind ++ '\n' :: more := by
  rcases List.append_eq_append_iff.1 h with ⟨behind, rfl, hrest⟩ | ⟨behind, htext, hrest⟩
  · cases behind with
    | nil => exact ⟨[], by simp, hrest.symm⟩
    | cons c behind =>
        obtain ⟨rfl, -⟩ := List.cons.inj hrest
        exact absurd (by simp) hpart
  · exact ⟨behind, htext, hrest⟩

theorem not_mem_of_all {p : Char → Bool} {c : Char} (hp : p c = false) (h : text.all p = true) :
    c ∉ text := by
  intro hmem
  rw [List.all_eq_true.1 h _ hmem] at hp
  cases hp

theorem break_not_mem_label {margin label : List Char} (hmargin : margin.all isIndent = true)
    (hlabel : label ∈ Pattern.name) : '\n' ∉ margin ++ label := by
  refine fun hmem => (List.mem_append.1 hmem).elim (not_mem_of_all (by decide) hmargin) ?_
  exact not_mem_of_all (p := isNamePart) (by decide) (Pattern.mem_name.1 hlabel).2

-- Whether a line closes a heredoc does not depend on the next line.
theorem closesHeredoc_append_break {label : List Char} (hlabel : label ∈ Pattern.name)
    (hne : text ≠ []) (h : closesHeredoc label (text ++ '\n' :: more) = true) (other : List Char) :
    closesHeredoc label (text ++ '\n' :: other) = true := by
  obtain ⟨margin, after, hsplit, hmargin, hends⟩ := (closesHeredoc_iff hlabel).1 h
  obtain ⟨c, line, rfl⟩ := List.exists_cons_of_ne_nil hne
  obtain ⟨rfl, hline⟩ := List.cons.inj hsplit
  obtain ⟨behind, rfl, rfl⟩ := split_of_break (hline.trans (List.append_assoc ..).symm)
    (break_not_mem_label hmargin hlabel)
  rw [headIs_append_break behind more other] at hends
  exact (closesHeredoc_iff hlabel).2 ⟨margin, behind ++ '\n' :: other, by simp, hmargin, hends⟩

-- A heredoc ends with its label in front of any text that does not go on with it.
theorem Closed.append {indent quote label front margin : List Char}
    (h : Closed (text ++ more) indent quote label front margin more)
    (hother : headIs isNamePart other = false) :
    Closed (text ++ other) indent quote label front margin other := by
  have htext := h.text_eq
  obtain ⟨⟨-, hindent, hquote, hlabel, hlabelled⟩, hmargin, -, hfirst⟩ := h
  refine ⟨⟨?_, hindent, hquote, hlabel, ?_⟩, hmargin, hother, fun m hm => ?_⟩
  · rw [htext]
    simp only [List.append_assoc, List.cons_append]
  · rw [← List.append_assoc] at hlabelled ⊢
    rwa [headIs_append_break _ _ (margin ++ (label ++ more))]
  · have hnot := hfirst m hm
    have hne : front.drop m ≠ [] := mt List.drop_eq_nil_iff.1 (Nat.not_le.2 hm)
    rw [List.drop_append_of_le_length (Nat.le_of_lt hm)] at hnot ⊢
    refine Bool.eq_false_iff.2 fun hcloses => ?_
    rw [closesHeredoc_append_break hlabel hne hcloses] at hnot
    cases hnot

end Scan

variable {kind : TokenKind}

namespace Opener

variable {o : Opener}

-- What an opener begins takes up a text behind it, in front of `more`.
def Ends (o : Opener) (text more : List Char) : Prop :=
  let marked : Prop := ∃ n, seek (startsWith "*/") (text ++ more) = some n ∧ text.length = n + 2
  match o with
  | .slashes | .hash => lineCommentLength (text ++ more) = text.length
  | .blockComment => marked
  | .docComment => text = ['/'] ∨ startsWith "/" (text ++ more) = false ∧ marked
  | .singleQuote => quotedLength '\'' (text ++ more) = some text.length
  | .doubleQuote => quotedLength '"' (text ++ more) = some text.length
  | .heredoc => ∃ indent quote label front margin,
      Closed (text ++ more) indent quote label front margin more

theorem read_eq_token : o.read (text ++ more) = .token kind (o.text.length + text.length) ↔
    kind = o.kind ∧ o.Ends text more := by
  have ended (stop : Option Nat) (closer : Closer) (m : Nat → Nat) :
      (stop.elim (.unterminated closer) fun n => Found.token o.kind (m n)) =
        .token kind (o.text.length + text.length) ↔
      kind = o.kind ∧ ∃ n, stop = some n ∧ m n = o.text.length + text.length := by
    cases stop <;> simp [eq_comm]
  have marked (n : Nat) : o.text.length + n + 2 = o.text.length + text.length ↔ text.length = n + 2 := by
    omega
  cases o with
  | slashes | hash => simp [read, Ends, eq_comm]
  | blockComment => simp only [read, ended, marked, Ends]
  | docComment =>
      rw [read, Ends]
      cases hslash : startsWith "/" (text ++ more) with
      | true =>
          have hshort : text.length = 1 ↔ text = ['/'] := by
            refine ⟨fun hlength => ?_, fun htext => by rw [htext]; rfl⟩
            obtain ⟨c, rfl⟩ := List.length_eq_one_iff.1 hlength
            obtain ⟨rest, hrest⟩ := startsWith_iff.1 hslash
            obtain rfl : c = '/' := (List.cons.inj hrest).1
            rfl
          simp [hshort, eq_comm]
      | false =>
          have hopen : text ≠ ['/'] := by
            rintro rfl
            cases hslash
          simp only [ended, marked, hopen, Bool.false_eq_true, if_false, false_or, true_and]
  | singleQuote | doubleQuote => simp [read, ended, Ends]
  | heredoc =>
      constructor
      · intro h
        obtain ⟨indent, quote, label, front, margin, hclosed, hkind⟩ := closed_of_heredoc_append h
        exact ⟨hkind, indent, quote, label, front, margin, hclosed⟩
      · rintro ⟨rfl, indent, quote, label, front, margin, hclosed⟩
        refine hclosed.heredoc_eq.trans ?_
        rw [List.length_append, Nat.add_sub_cancel]
        rfl

-- What an opener begins ends where it did in front of another text, if a name does not go on there
-- and a line comment ends there.
theorem Ends.append (h : o.Ends text more)
    (hname : headIs isNamePart more = false → headIs isNamePart other = false)
    (hline : o.kind = .lineComment → lineCommentLength (text ++ more) = text.length →
      lineCommentLength (text ++ other) = text.length) : o.Ends text other := by
  have marked (h : ∃ n, seek (startsWith "*/") (text ++ more) = some n ∧ text.length = n + 2) :
      ∃ n, seek (startsWith "*/") (text ++ other) = some n ∧ text.length = n + 2 := by
    obtain ⟨n, hseek, hlength⟩ := h
    exact ⟨n, seek_startsWith_append hseek (Nat.le_of_eq hlength.symm) _ (by decide), hlength⟩
  cases o with
  | slashes | hash => exact hline rfl h
  | blockComment => exact marked h
  | docComment =>
      refine h.imp_right fun ⟨hopen, hmarked⟩ => ⟨?_, marked hmarked⟩
      obtain ⟨n, -, hlength⟩ := hmarked
      have hslash (rest : List Char) : startsWith "/" (text ++ rest) = startsWith "/" text :=
        startsWith_append (s := "/") (by rw [hlength]; exact Nat.le_add_left 1 (n + 1)) rest
      rwa [hslash] at hopen ⊢
  | singleQuote | doubleQuote => exact quotedLength_append (by decide) h (Nat.le_refl _) other
  | heredoc =>
      obtain ⟨indent, quote, label, front, margin, hclosed⟩ := h
      exact ⟨indent, quote, label, front, margin, hclosed.append (hname hclosed.ends)⟩

end Opener

namespace Pattern

section Lacks

variable {l m : Language Char} {c : Char} {p : Char → Bool}

-- No text of a language contains a character.
def Lacks (c : Char) (l : Language Char) : Prop := ∀ cs ∈ l, c ∉ cs

theorem lacks_many (hp : p c = false) : Lacks c (many p) := fun _ hcs => not_mem_of_all hp (mem_many.1 hcs)

theorem lacks_one (hp : p c = false) : Lacks c (one p) := by
  rintro _ ⟨d, hd, rfl⟩
  exact not_mem_of_all hp (by simpa using hd)

theorem lacks_exactly {s : String} (hs : c ∉ s.toList) : Lacks c (exactly s) := by
  rintro _ rfl
  exact hs

theorem Lacks.mul (hl : Lacks c l) (hm : Lacks c m) : Lacks c (l * m) := by
  rintro _ ⟨as, has, bs, hbs, rfl⟩ hmem
  exact (List.mem_append.1 hmem).elim (hl as has) (hm bs hbs)

theorem Lacks.optional (hl : Lacks c l) : Lacks c (1 + l) := by
  rintro cs (rfl | hcs)
  · simp
  · exact hl cs hcs

theorem lacks_several (hp : p c = false) : Lacks c (several p) := (lacks_one hp).mul (lacks_many hp)

-- Words and numbers contain neither line feeds nor question marks.
theorem lacks_of_word (hc : c = '\n' ∨ c = '?') :
    ∀ p : Pattern, (p.isLiteral = true → ∃ k, p = .keyword k) → Lacks c p.language := by
  have plain {f : Char → Bool} (hf : f '\n' = false ∧ f '?' = false) : f c = false := by
    rcases hc with rfl | rfl
    · exact hf.1
    · exact hf.2
  have fixed {s : String} (hs : '\n' ∉ s.toList ∧ '?' ∉ s.toList) : Lacks c (exactly s) := by
    rcases hc with rfl | rfl
    · exact lacks_exactly hs.1
    · exact lacks_exactly hs.2
  have hname : Lacks c name := (lacks_one (plain (by decide))).mul (lacks_many (plain (by decide)))
  have hdigits : Lacks c digits := lacks_several (plain (by decide))
  have hexponent : Lacks c exponent := (lacks_one (plain (by decide))).mul
    ((lacks_one (plain (by decide))).optional.mul hdigits)
  have hbased {mark : Char} {isDigit : Char → Bool}
      (hmark : ('\n' = mark || '\n' = mark.toUpper) = false ∧ ('?' = mark || '?' = mark.toUpper) = false)
      (hdigit : isDigit '\n' = false ∧ isDigit '?' = false) : Lacks c (based mark isDigit) :=
    (fixed (by decide)).mul
      ((lacks_one (plain (f := fun c => c = mark || c = mark.toUpper) hmark)).mul
        (lacks_several (plain hdigit)))
  intro p hp
  cases p with
  | opener | closeTag | symbol =>
      obtain ⟨k, hk⟩ := hp rfl
      cases hk
  | keyword k => exact fun cs hcs => hname cs (mem_name.2 (name_of_lowered hcs))
  | variableName => exact (fixed (by decide)).mul hname
  | identifier => exact hname
  | hexadecimal => exact hbased (by decide) (by decide)
  | binary => exact hbased (by decide) (by decide)
  | decimal => exact hdigits
  | pointed =>
      exact hdigits.mul ((fixed (by decide)).mul ((lacks_many (plain (by decide))).mul hexponent.optional))
  | scaled => exact hdigits.mul hexponent
  | fraction => exact (fixed (by decide)).mul (hdigits.mul hexponent.optional)

theorem lacks_break (p : Pattern) : Lacks '\n' p.language := by
  have hspellings : ∀ s ∈ Symbol.spellings, '\n' ∉ s.1.toList := by decide
  cases p with
  | opener o => exact lacks_exactly (by cases o <;> decide)
  | closeTag => exact lacks_exactly (by decide)
  | symbol text s spelled => exact lacks_exactly (hspellings _ spelled)
  | keyword k => exact lacks_of_word (.inl rfl) _ fun _ => ⟨k, rfl⟩
  | _ => exact lacks_of_word (.inl rfl) _ nofun

end Lacks

variable {p : Pattern} {front : List Char}

-- What fits in front of a line feed ends in front of it.
theorem Fits.of_break {q : Pattern} (h : q.Fits (text ++ '\n' :: other) front) : front <+: text := by
  obtain ⟨rest, hrest⟩ := h.front
  obtain ⟨behind, hbehind, -⟩ := split_of_break hrest.symm (lacks_break q front h.mem)
  exact ⟨behind, hbehind.symm⟩

-- What is longest in front of a text is so in front of another one where nothing more fits.
theorem Longest.append (h : p.Longest (text ++ more) front) (hfront : front <+: text)
    (hfits : ∀ (q : Pattern) part, q.Fits (text ++ other) part → q.Fits (text ++ more) part) :
    p.Longest (text ++ other) front :=
  ⟨⟨h.mem, h.fits.nonempty, hfront.trans (List.prefix_append text _)⟩,
    fun q part hq => h.longest q part (hfits q part hq),
    fun q part hq hlength => h.literal q part (hfits q part hq) hlength⟩

end Pattern

-- A token of code is the same token in front of another text, if neither a pattern nor a name goes
-- on there and a line comment ends there.
theorem Scan.code_append (h : code (text ++ more) = .token kind text.length)
    (hfits : ∀ (q : Pattern) part, q.Fits (text ++ other) part → q.Fits (text ++ more) part)
    (hname : headIs isNamePart more = false → headIs isNamePart other = false)
    (hline : kind = .lineComment → ∀ part : List Char,
      lineCommentLength (part ++ more) = part.length →
      lineCommentLength (part ++ other) = part.length) :
    code (text ++ other) = .token kind text.length := by
  obtain ⟨p, front, part, rfl, hp, rfl, hread⟩ := longest_of_code h
  have hcode : code (front ++ (part ++ other)) = p.read front (part ++ other) := by
    rw [← List.append_assoc] at hp
    refine Pattern.Longest.code_eq ?_
    rw [← List.append_assoc]
    exact hp.append (List.prefix_append front part) hfits
  rw [List.append_assoc, hcode, List.length_append]
  cases p with
  | opener o =>
      obtain rfl : front = o.text.toList := hp.mem
      rw [String.length_toList] at hread ⊢
      obtain ⟨hkind, hends⟩ := Opener.read_eq_token.1 hread
      exact Opener.read_eq_token.2 ⟨hkind, hends.append hname fun hk => hline hk part⟩
  | _ => exact hread

-- A token of code is the same token in front of a line feed.
theorem Scan.code_append_break (h : code (text ++ more) = .token kind text.length) (other : List Char) :
    code (text ++ '\n' :: other) = .token kind text.length :=
  code_append h
    (fun _ _ hq => ⟨hq.mem, hq.nonempty, hq.of_break.trans (List.prefix_append text more)⟩)
    (fun _ => rfl) fun _ _ hpart => lineCommentLength_append hpart other

end Census
