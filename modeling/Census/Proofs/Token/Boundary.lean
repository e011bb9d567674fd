import Census.Proofs.Token.Quoted
import Census.Token.Lexeme

namespace Census

namespace Text

-- The characters of which line breaks are made.
def isBreak (c : Char) : Bool := c = '\r' || c = '\n'

-- A text on one line.
def Inline (cs : List Char) : Prop := ∀ c ∈ cs, isBreak c = false

instance (cs : List Char) : Decidable (Inline cs) := List.decidableBAll _ cs

-- Every line break ends a run of such characters.
def Unbroken (p : Char → Bool) : Prop := p '\r' = false ∧ p '\n' = false

instance (p : Char → Bool) : Decidable (Unbroken p) := instDecidableAnd

-- A text has `n` characters, and the first `n` stand on one line.
structure Clear (n : Nat) (cs : List Char) : Prop where
  le : n ≤ cs.length
  inline : Inline (cs.take n)

-- A text has `n` characters, and the first `n` do not end with part of a line break.
structure Firm (n : Nat) (cs : List Char) : Prop where
  le : n ≤ cs.length
  last : ∀ c ∈ (cs.take n).getLast?, isBreak c = false

-- No line feed stands behind the first `n` characters if they end with a carriage return.
def Parted (n : Nat) (cs : List Char) : Prop :=
  (cs.take n).getLast? = some '\r' → (cs.drop n).head? ≠ some '\n'

variable {cs : List Char} {a b n : Nat} {p : Char → Bool}

theorem isBreak_iff {c : Char} : isBreak c = true ↔ c = '\r' ∨ c = '\n' := by
  simp [isBreak]

theorem Unbroken.inline (hp : Unbroken p) (h : cs.all p = true) : Inline cs := by
  intro c hc
  have htrue := List.all_eq_true.1 h c hc
  refine Bool.eq_false_iff.2 fun hbreak => ?_
  rcases isBreak_iff.1 hbreak with rfl | rfl
  · rw [hp.1] at htrue
    cases htrue
  · rw [hp.2] at htrue
    cases htrue

-- Casing makes no line breaks and takes none away.
theorem inline_of_lowered {tag : List Char} (h : cs.map Char.toLower = tag) (htag : Inline tag) :
    Inline cs := by
  intro c hc
  have hlower := htag _ (h ▸ List.mem_map_of_mem hc)
  refine Bool.eq_false_iff.2 fun hbreak => ?_
  rcases isBreak_iff.1 hbreak with rfl | rfl <;> exact absurd hlower (by decide)

theorem clear_zero (cs : List Char) : Clear 0 cs := ⟨Nat.zero_le _, by simp [Inline]⟩

theorem Clear.add (ha : Clear a cs) (hb : Clear b (cs.drop a)) : Clear (a + b) cs := by
  have hle := hb.le
  rw [List.length_drop] at hle
  refine ⟨by have := ha.le; omega, ?_⟩
  rw [List.take_add]
  exact List.forall_mem_append.2 ⟨ha.inline, hb.inline⟩

theorem Clear.add_tail (h : Clear 1 cs) (ht : Clear n cs.tail) : Clear (1 + n) cs :=
  h.add (by rwa [List.drop_one])

theorem clear_of_prefix {part : List Char} (h : part <+: cs) (hpart : Inline part) :
    Clear part.length cs := by
  refine ⟨h.length_le, ?_⟩
  rwa [← List.prefix_iff_eq_take.1 h]

theorem take_run (p : Char → Bool) (cs : List Char) : cs.take (run p cs) = cs.takeWhile p :=
  (List.prefix_iff_eq_take.1 (List.takeWhile_prefix p)).symm

theorem drop_run (p : Char → Bool) (cs : List Char) : cs.drop (run p cs) = cs.dropWhile p := by
  have hsplit : cs.takeWhile p ++ cs.dropWhile p = cs := List.takeWhile_append_dropWhile
  have hdrop : (cs.takeWhile p ++ cs.dropWhile p).drop (run p cs) = cs.dropWhile p :=
    List.drop_left
  rwa [hsplit] at hdrop

theorem clear_run (hp : Unbroken p) (cs : List Char) : Clear (run p cs) cs :=
  clear_of_prefix (List.takeWhile_prefix p) (hp.inline List.all_takeWhile)

theorem Clear.firm (h : Clear n cs) : Firm n cs :=
  ⟨h.le, fun c hc => h.inline c (List.mem_of_getLast? hc)⟩

-- Any text may stand in front of a part that is not empty.
theorem Firm.behind (h : Firm b (cs.drop a)) (hb : b ≠ 0) : Firm (a + b) cs := by
  have hle := h.le
  have hlast := h.last
  rw [List.length_drop] at hle
  have hne : (cs.drop a).take b ≠ [] := by
    rw [ne_eq, ← List.length_eq_zero_iff, List.length_take, List.length_drop]
    omega
  refine ⟨by omega, ?_⟩
  rw [List.take_add, List.getLast?_append]
  rw [List.getLast?_eq_some_getLast hne] at hlast ⊢
  exact hlast

theorem Firm.parted (h : Firm n cs) : Parted n cs := fun hr => absurd (h.last _ hr) (by decide)

-- A run of spaces reaches as far as it can, so no line feed stands behind it.
theorem parted_run (hp : p '\n' = true) (cs : List Char) : Parted (run p cs) cs := by
  rintro - hhead
  rw [drop_run] at hhead
  have hnot := List.head?_dropWhile_not p cs
  rw [hhead] at hnot
  simp [hp] at hnot

-- Nothing that is looked for is passed over.
theorem seek_before {q : List Char → Bool} {m : Nat} (h : m < (seek q cs).getD cs.length) :
    q (cs.drop m) = false := by
  induction cs generalizing m with
  | nil => simp [seek] at h
  | cons c rest ih =>
      rw [seek] at h
      split at h
      · simp at h
      · rename_i hq
        cases m with
        | zero => simpa using hq
        | succ m =>
            refine ih ?_
            cases hs : seek q rest with
            | none => simpa [hs] using h
            | some k => simpa [hs] using h

theorem seek_getD_le (q : List Char → Bool) (cs : List Char) :
    (seek q cs).getD cs.length ≤ cs.length := by
  cases h : seek q cs with
  | none => exact Nat.le_refl _
  | some n => exact Nat.le_of_lt (seek_lt_length h)

-- A search ends at the first place that is looked for.
theorem seek_eq_some {q : List Char → Bool} : seek q cs = some n ↔
    n < cs.length ∧ q (cs.drop n) = true ∧ ∀ m < n, q (cs.drop m) = false := by
  constructor
  · intro h
    refine ⟨seek_lt_length h, seek_holds h, fun m hm => seek_before ?_⟩
    rwa [h]
  · intro ⟨hlt, hfound, hbefore⟩
    induction cs generalizing n with
    | nil => simp at hlt
    | cons c cs ih =>
        cases n with
        | zero => exact if_pos hfound
        | succ n =>
            have hc : ¬q (c :: cs) = true := Bool.eq_false_iff.1 (hbefore 0 (Nat.succ_pos n))
            have hcs := ih (Nat.lt_of_succ_lt_succ hlt) hfound fun m hm =>
              hbefore (m + 1) (Nat.succ_lt_succ hm)
            rw [seek, if_neg hc, hcs]
            rfl

-- What is looked for stands where the search ended, unless the text has ended there.
theorem holds_of_seek_getD {q : List Char → Bool} {ds : List Char}
    (h : (seek q (cs ++ ds)).getD (cs ++ ds).length = cs.length) : ds = [] ∨ q ds = true := by
  cases hseek : seek q (cs ++ ds) with
  | none =>
      rw [hseek, Option.getD_none, List.length_append] at h
      exact .inl (List.length_eq_zero_iff.1 (by omega))
  | some n =>
      rw [hseek] at h
      obtain rfl : n = cs.length := h
      have hholds := seek_holds hseek
      rw [List.drop_left] at hholds
      exact .inr hholds

end Text

open Text

namespace Scan

variable {cs : List Char} {kind : TokenKind} {n : Nat}

theorem clear_of_startsWith {s : String} (h : startsWith s cs = true) (hs : Inline s.toList) :
    Clear s.toList.length cs :=
  clear_of_prefix (List.isPrefixOf_iff_prefix.1 h) hs

theorem clear_of_headIs {p : Char → Bool} (h : headIs p cs = true) (hp : Unbroken p) :
    Clear 1 cs := by
  cases cs with
  | nil => cases h
  | cons c rest =>
      have hc : [c].all p = true := by simpa [headIs] using h
      exact ⟨Nat.succ_pos _, hp.inline hc⟩

-- The sign of an exponent, if there is one.
theorem clear_sign (cs : List Char) :
    Clear (if headIs (fun c => c = '+' || c = '-') cs = true then 1 else 0) cs := by
  split
  · exact clear_of_headIs ‹_› (by decide)
  · exact clear_zero cs

theorem clear_exponentLength (cs : List Char) : Clear (exponentLength cs) cs := by
  have hsign := clear_sign cs.tail
  unfold exponentLength
  dsimp only
  generalize (if headIs (fun c => c = '+' || c = '-') cs.tail = true then 1 else 0) = sign at hsign ⊢
  split
  · rename_i h
    have hmark : Clear 1 cs := clear_of_headIs (Bool.and_eq_true_iff.1 h).1 (by decide)
    exact (hmark.add_tail hsign).add (clear_run (by decide) _)
  · exact clear_zero cs

theorem clear_of_lowered {tag : List Char} (hn : tag.length = n)
    (h : (cs.take n).map Char.toLower = tag) (htag : Inline tag) : Clear n cs := by
  refine ⟨?_, inline_of_lowered h htag⟩
  have hlength := congrArg List.length h
  rw [List.length_map, List.length_take] at hlength
  omega

theorem clear_of_basedLength {mark : Char} {isDigit : Char → Bool} (hmark : isBreak mark = false)
    (hdigit : Unbroken isDigit) (h : basedLength mark isDigit cs = some n) : Clear n cs := by
  unfold basedLength at h
  dsimp only at h
  split at h
  · rename_i hcond
    simp only [Bool.and_eq_true, decide_eq_true_eq] at hcond
    cases h
    have htag : Inline ['0', mark] :=
      List.forall_mem_cons.2 ⟨rfl, List.forall_mem_singleton.2 hmark⟩
    have hmarked : Clear 2 cs := clear_of_lowered (n := 2) rfl hcond.1 htag
    exact hmarked.add (clear_run hdigit _)
  · cases h

theorem clear_of_number (found : number cs = .token kind n) : Clear n cs := by
  unfold number at found
  split at found
  · rename_i m based
    cases found
    rcases Option.or_eq_some_iff.1 based with h | ⟨-, h⟩
    · exact clear_of_basedLength (by decide) (by decide) h
    · exact clear_of_basedLength (by decide) (by decide) h
  · have hwhole : Clear (run Char.isDigit cs) cs := clear_run (by decide) cs
    dsimp only at found
    split at found
    · rename_i hpoint
      cases found
      have hpoint : Clear 1 (cs.drop (run Char.isDigit cs)) := clear_of_startsWith hpoint (by decide)
      rw [Nat.add_assoc, Nat.add_assoc]
      refine hwhole.add ?_
      rw [← Nat.add_assoc]
      exact (hpoint.add_tail (clear_run (by decide) _)).add (clear_exponentLength _)
    · split at found
      · cases found
        exact hwhole
      · cases found
        exact hwhole.add (clear_exponentLength _)

theorem clear_of_fractionNumber (h : startsWith "." cs = true)
    (found : fractionNumber cs = .token kind n) : Clear n cs := by
  cases found
  have hpoint : Clear 1 cs := clear_of_startsWith h (by decide)
  exact (hpoint.add_tail (clear_run (by decide) _)).add (clear_exponentLength _)

theorem clear_of_variableName (h : startsWith "$" cs = true)
    (found : variableName cs = .token kind n) : Clear n cs := by
  cases found
  have hsign : Clear 1 cs := clear_of_startsWith h (by decide)
  exact hsign.add_tail (clear_run (by decide) _)

theorem clear_of_word (found : word cs = .token kind n) : Clear n cs := by
  have hrun : Clear (run isNamePart cs) cs := clear_run (by decide) cs
  unfold word at found
  dsimp only at found
  split at found <;>
  · cases found
    exact hrun

theorem clear_of_mark (found : mark cs = .token kind n) : Clear n cs := by
  have hspellings : ∀ s ∈ Symbol.spellings, Inline s.1.toList := by decide
  unfold mark at found
  split at found
  · rename_i text s h
    cases found
    have hbegins := List.find?_some (p := fun s : String × Symbol => startsWith s.1 cs) h
    exact clear_of_startsWith hbegins (hspellings _ (List.mem_of_find?_eq_some h))
  · cases found

-- A line comment stops in front of a line break.
theorem clear_lineCommentLength (cs : List Char) : Clear (lineCommentLength cs) cs := by
  refine ⟨seek_getD_le _ cs, fun c hmem => ?_⟩
  obtain ⟨m, hm, rfl⟩ := List.mem_take_iff_getElem.1 hmem
  have hstop := seek_before (Nat.lt_of_lt_of_le hm (Nat.min_le_left _ _))
  rw [List.drop_eq_getElem_cons (by omega)] at hstop
  refine Bool.eq_false_iff.2 fun hbreak => ?_
  rcases isBreak_iff.1 hbreak with hc | hc <;>
  · rw [hc] at hstop
    simp [startsWith, List.isPrefixOf] at hstop

theorem clear_of_lineComment {opener : String} (hopener : Inline opener.toList)
    (h : startsWith opener cs = true)
    (found : lineComment opener.toList.length cs = .token kind n) : Clear n cs := by
  cases found
  exact (clear_of_startsWith h hopener).add (clear_lineCommentLength _)

-- A quoted text ends with its quote.
theorem firm_of_quotedLength {quote : Char} (hquote : isBreak quote = false)
    (h : quotedLength quote cs = some n) : Firm n cs ∧ n ≠ 0 := by
  induction cs using quotedLength.induct quote generalizing n with
  | case1 => cases h
  | case2 => cases h
  | case3 c rest ih =>
      simp only [quotedLength, if_true] at h
      obtain ⟨m, hm, rfl⟩ := Option.map_eq_some_iff.1 h
      obtain ⟨hfirm, hne⟩ := ih hm
      rw [Nat.add_comm]
      exact ⟨Firm.behind (a := 2) hfirm hne, by omega⟩
  | case4 rest hq =>
      rw [quotedLength_quote hq] at h
      cases h
      exact ⟨⟨Nat.succ_pos _, by simpa using hquote⟩, Nat.one_ne_zero⟩
  | case5 c rest hc hq ih =>
      rw [quotedLength_other hc hq] at h
      obtain ⟨m, hm, rfl⟩ := Option.map_eq_some_iff.1 h
      obtain ⟨hfirm, hne⟩ := ih hm
      rw [Nat.add_comm]
      exact ⟨Firm.behind (a := 1) hfirm hne, by omega⟩

theorem isBreak_of_isQuote {c : Char} (h : isQuote c = true) : isBreak c = false := by
  have hquote : c = '\'' ∨ c = '"' := by simpa [isQuote] using h
  rcases hquote with rfl | rfl <;> rfl

theorem firm_of_quotedString {quote : Char} {closer : Closer} (hquote : isQuote quote = true)
    (found : quotedString quote closer cs = .token kind n) : Firm n cs := by
  rw [quotedString_eq hquote, ← List.drop_one] at found
  cases hlength : quotedLength quote (cs.drop 1) with
  | none =>
      rw [hlength] at found
      cases found
  | some m =>
      rw [hlength] at found
      cases found
      obtain ⟨hfirm, hne⟩ := firm_of_quotedLength (isBreak_of_isQuote hquote) hlength
      rw [Nat.add_comm]
      exact hfirm.behind hne

theorem firm_of_blockComment {k : TokenKind} {opener : Nat}
    (found : blockComment k opener cs = .token kind n) : Firm n cs := by
  unfold blockComment at found
  split at found
  · rename_i m hm
    cases found
    have hend : startsWith "*/" (cs.drop (opener + m)) = true := by
      rw [← List.drop_drop]
      exact seek_holds hm
    exact (clear_of_startsWith hend (by decide)).firm.behind (by decide)
  · cases found

-- The label of a heredoc is a name.
theorem label_of_heredocHeader {label : List Char} {m : Nat}
    (h : heredocHeader cs = some (label, m)) : label ≠ [] ∧ label.all isNamePart = true := by
  have named (header : List Char) (h : headIs isNameStart (header.takeWhile isNamePart) = true) :
      header.takeWhile isNamePart ≠ [] ∧ (header.takeWhile isNamePart).all isNamePart = true := by
    refine ⟨fun hnil => ?_, List.all_takeWhile⟩
    rw [hnil] at h
    cases h
  unfold heredocHeader at h
  dsimp only at h
  generalize (if Option.isSome _ = true then 1 else 0) = opening at h
  split at h
  · rename_i hstart
    split at h
    · cases h
      exact named _ hstart
    · split at h
      · cases h
        exact named _ hstart
      · cases h
  · cases h

-- The line that closes a heredoc is read up to the last character of the label.
theorem clear_of_closesHeredoc {label : List Char} (h : closesHeredoc label cs = true)
    (hall : label.all isNamePart = true) :
    Clear (run isIndent cs.tail + label.length) cs.tail := by
  simp only [closesHeredoc, Bool.and_eq_true] at h
  have hname : Unbroken isNamePart := by decide
  have hlabel := clear_of_prefix (List.isPrefixOf_iff_prefix.1 h.2.1) (hname.inline hall)
  rw [← List.drop_drop, List.drop_one] at hlabel
  exact (clear_run (by decide) _).add hlabel

theorem firm_of_heredoc (found : heredoc cs = .token kind n) : Firm n cs := by
  unfold heredoc at found
  split at found
  · cases found
  · rename_i label header hheader
    obtain ⟨hne, hall⟩ := label_of_heredocHeader hheader
    dsimp only at found
    split at found
    · cases found
    · rename_i m hm
      cases found
      have hpos := List.length_pos_iff.2 hne
      have hfirm := (clear_of_closesHeredoc (seek_holds hm) hall).firm
      rw [List.drop_drop, List.tail_drop] at hfirm
      simpa only [Nat.add_assoc, List.drop_drop] using hfirm.behind (by omega)

theorem firm_of_rule : ∀ r ∈ rules, ∀ cs, r.applies cs = true → ∀ kind n,
    r.scan cs = .token kind n → Firm n cs := by
  have fixed (opener : String) (hopener : Inline opener.toList) (k : TokenKind) (cs : List Char)
      (h : startsWith opener cs = true) (kind : TokenKind) (n : Nat)
      (found : Found.token k opener.toList.length = .token kind n) : Firm n cs := by
    cases found
    exact (clear_of_startsWith h hopener).firm
  simp only [rules, List.forall_mem_cons]
  refine ⟨fun _ _ _ _ found => (clear_of_word found).firm,
    fun _ _ _ _ found => (clear_of_number found).firm,
    fun _ h _ _ found => (clear_of_variableName (Bool.and_eq_true_iff.1 h).1 found).firm,
    fun _ h _ _ found => (clear_of_fractionNumber (Bool.and_eq_true_iff.1 h).1 found).firm,
    fun _ _ _ _ => firm_of_quotedString (by decide),
    fun _ _ _ _ => firm_of_quotedString (by decide),
    fun _ h _ _ found => (clear_of_lineComment (by decide) h found).firm,
    fun _ h _ _ found => (clear_of_lineComment (by decide) h found).firm,
    fixed "/**/" (by decide) _, fun _ _ _ _ => firm_of_blockComment,
    fun _ _ _ _ => firm_of_blockComment, fun _ _ _ _ => firm_of_heredoc,
    fixed "?>" (by decide) _, by simp⟩

-- No token of code ends with part of a line break.
theorem firm_of_code (found : code cs = .token kind n) : Firm n cs := by
  unfold code at found
  split at found
  · rename_i r h
    have happlies : r.applies cs = true := List.find?_some (p := fun r : Rule => r.applies cs) h
    exact firm_of_rule r (List.mem_of_find?_eq_some h) cs happlies kind n found
  · exact (clear_of_mark found).firm

theorem clear_of_opensCode (h : opensCode cs = true) : Clear 5 cs :=
  clear_of_lowered (n := 5) rfl (of_decide_eq_true h) (by decide)

theorem head?_of_opensCode (h : opensCode cs = true) : cs.head? ≠ some '\n' := by
  have htag : (cs.take 5).map Char.toLower = "<?php".toList := of_decide_eq_true h
  intro hhead
  have htag := congrArg List.head? htag
  rw [List.head?_map, List.head?_take, if_neg (by decide), hhead] at htag
  exact absurd htag (by decide)

end Scan

-- The look-ahead over a line break never reaches further than one character.
theorem Position.advance_take_of_lt (p : Position) {m n : Nat} (h : m < n) (cs : List Char) :
    p.advance m (cs.take n) = p.advance m cs := by
  induction m generalizing p n cs with
  | zero => rfl
  | succ m ih =>
      obtain ⟨n, rfl⟩ : ∃ k, n = k + 1 := ⟨n - 1, by omega⟩
      cases cs with
      | nil => rfl
      | cons c rest =>
          have hhead : (rest.take n).head? = rest.head? := by
            rw [List.head?_take, if_neg (by omega)]
          rw [List.take_succ_cons, advance, advance, hhead, ih _ (by omega)]

-- Between the two characters of a line break, it would miss the second one.
theorem Position.advance_take (p : Position) {n : Nat} {cs : List Char} (h : Parted n cs) :
    p.advance n (cs.take n) = p.advance n cs := by
  induction n generalizing p cs with
  | zero => rfl
  | succ n ih =>
      cases cs with
      | nil => rfl
      | cons c rest =>
          rw [List.take_succ_cons, advance, advance]
          cases n with
          | zero =>
              simp only [Parted, List.take_succ_cons, List.take_zero, List.getLast?_singleton,
                List.drop_succ_cons, List.drop_zero, Option.some.injEq] at h
              simp only [advance, after, List.take_zero, List.head?_nil]
              by_cases hc : c = '\r'
              · simp [hc, h hc]
              · simp [hc]
          | succ n =>
              have hhead : (rest.take (n + 1)).head? = rest.head? := by
                rw [List.head?_take, if_neg (Nat.succ_ne_zero n)]
              have hrest : Parted (n + 1) rest := by
                intro hlast
                refine h ?_
                rw [List.take_succ_cons, List.getLast?_cons, hlast]
                rfl
              rw [hhead, ih _ hrest]

namespace Lexer

variable {lexer : Lexer}

theorem parted_gap (lexer : Lexer) : Parted lexer.gap lexer.rest := by
  rw [gap]
  split
  · exact (clear_zero _).firm.parted
  · exact parted_run (by decide) _

theorem parted_found {c : Char} {cs : List Char} {kind : TokenKind} {n : Nat}
    (hrest : lexer.rest.drop lexer.gap = c :: cs) (h : lexer.found = .token kind n) :
    n ≤ (c :: cs).length ∧ Parted n (c :: cs) := by
  rw [found] at h
  split at h
  · rename_i hmode
    rw [gap, hmode, List.drop_zero] at hrest
    rw [hrest, Scan.markupLength] at h
    cases hseek : seek Scan.opensCode (c :: cs) with
    | none =>
        rw [hseek] at h
        cases h
        exact ⟨Nat.le_refl _, by simp [Parted]⟩
    | some m =>
        have hopens := seek_holds hseek
        have hle := seek_lt_length hseek
        rw [hseek] at h
        -- Code opens behind the markup, or it does so at once.
        cases m with
        | zero =>
            cases h
            exact ⟨(Scan.clear_of_opensCode hopens).le, (Scan.clear_of_opensCode hopens).firm.parted⟩
        | succ m =>
            cases h
            exact ⟨Nat.le_of_lt hle, fun _ => Scan.head?_of_opensCode hopens⟩
  · rw [hrest] at h
    exact ⟨(Scan.firm_of_code h).le, (Scan.firm_of_code h).parted⟩

end Lexer

end Census
