import Census.Proofs.Token.Pattern

namespace Census

open Text Scan

variable {cs text more : List Char}

theorem Keyword.word_injective {k j : Keyword} (h : k.word = j.word) : k = j := by
  have hwords : (Keyword.all.map word).Nodup := by decide +kernel
  exact List.inj_on_of_nodup_map hwords k.mem_all j.mem_all h

-- A name is a keyword if its lower casing is the word of one.
theorem Keyword.ofName?_eq_some {k : Keyword} :
    ofName? (String.ofList text) = some k ↔ text.map Char.toLower = k.word.toList := by
  rw [ofName?, String.toList_ofList]
  constructor
  · intro h
    have hword : k.word = String.ofList (text.map Char.toLower) := by simpa using List.find?_some h
    rw [hword, String.toList_ofList]
  · intro h
    rw [h, String.ofList_toList]
    cases hfind : Keyword.all.find? (fun j => j.word = k.word) with
    | none => exact absurd (List.find?_eq_none.1 hfind k k.mem_all) (by simp)
    | some j =>
        have hword : j.word = k.word := by simpa using List.find?_some hfind
        rw [word_injective hword]

namespace Scan

-- Casing changes nothing but letters, and can be undone for them.
theorem toLower_cases (c : Char) : c.toLower = c ∨ c.isAlpha = true ∧ c.toLower.toUpper = c := by
  have hletters : ∀ n < 91, 65 ≤ n →
      (Char.ofNat n).isAlpha = true ∧ (Char.ofNat n).toLower.toUpper = Char.ofNat n := by decide
  by_cases h : c.val ≥ 'A'.val ∧ c.val ≤ 'Z'.val
  · have hc := hletters c.toNat (Nat.lt_succ_of_le h.2) h.1
    rw [Char.ofNat_toNat] at hc
    exact .inr hc
  · exact .inl (dif_neg h)

theorem isNamePart_of_toLower {c : Char} (h : isNamePart c.toLower = true) : isNamePart c = true := by
  rcases toLower_cases c with hc | ⟨hc, -⟩
  · rwa [hc] at h
  · simp [isNamePart, Char.isAlphanum, hc]

theorem isNameStart_of_toLower {c : Char} (h : isNameStart c.toLower = true) :
    isNameStart c = true := by
  rcases toLower_cases c with hc | ⟨hc, -⟩
  · rwa [hc] at h
  · simp [isNameStart, hc]

-- A text that spells a keyword is a name.
theorem name_of_lowered {k : Keyword} (h : text.map Char.toLower = k.word.toList) :
    headIs isNameStart text = true ∧ text.all isNamePart = true := by
  obtain ⟨hstart, hparts, -⟩ := spelled_keyword k
  rw [← h] at hstart hparts
  constructor
  · cases text with
    | nil => cases hstart
    | cons c text => exact isNameStart_of_toLower hstart
  · rw [List.all_map] at hparts
    exact List.all_eq_true.2 fun c hc => isNamePart_of_toLower (List.all_eq_true.1 hparts c hc)

section Number

open Pattern

variable {mark : Char} {isDigit : Char → Bool} {whole part : List Char} {n : Nat}

theorem isSign_of_isDigit (c : Char) (h : c.isDigit = true) : (c = '+' || c = '-') = false := by
  refine Bool.eq_false_iff.2 fun hsign => ?_
  simp only [Bool.or_eq_true, decide_eq_true_eq] at hsign
  rcases hsign with rfl | rfl <;> cases h

theorem not_headIs_of_digits {p : Char → Bool} (hp : ∀ c, c.isDigit = true → p c = false)
    (h : part.all Char.isDigit = true) (hne : part ≠ []) : headIs p (part ++ more) = false := by
  cases part with
  | nil => exact absurd rfl hne
  | cons c part => exact hp c (List.all_eq_true.1 h c List.mem_cons_self)

-- The digits of an exponent are read to their end.
theorem exponentLength_append (h : part ∈ exponent) (hmore : headIs Char.isDigit more = false) :
    exponentLength (part ++ more) = part.length := by
  obtain ⟨c, sign, ds, rfl, hc, hsign, hne, hall⟩ := mem_exponent.1 h
  have hmark : headIs (fun c => c = 'e' || c = 'E') (c :: (sign ++ (ds ++ more))) = true := by
    simpa [headIs] using hc
  have hsigned : (if headIs (fun c => c = '+' || c = '-') (c :: (sign ++ (ds ++ more))).tail = true
      then 1 else 0) = sign.length := by
    rcases hsign with rfl | rfl | rfl
    · exact if_neg (Bool.eq_false_iff.1 (not_headIs_of_digits isSign_of_isDigit hall hne))
    · rfl
    · rfl
  have hdrop : (c :: (sign ++ (ds ++ more))).drop (1 + sign.length) = ds ++ more := by
    rw [Nat.add_comm, List.drop_succ_cons, List.drop_left]
  have hlength : ds.length ≠ 0 := fun hzero => hne (List.length_eq_zero_iff.1 hzero)
  rw [exponentLength, List.cons_append, List.append_assoc]
  simp only [hmark, hsigned, hdrop, run_append hall hmore, Bool.true_and, bne_iff_ne, ne_eq, hlength,
    not_false_eq_true, if_true]
  simp only [List.length_cons, List.length_append]
  omega

-- What is read as an exponent is one.
theorem exponent_of_exponentLength (h : exponentLength cs ≠ 0) :
    ∃ part rest, part ∈ exponent ∧ cs = part ++ rest := by
  have hcond := of_not_not fun hnot => h (if_neg hnot)
  simp only [Bool.and_eq_true, bne_iff_ne] at hcond
  obtain ⟨hmark, hdigits⟩ := hcond
  cases cs with
  | nil => cases hmark
  | cons c cs =>
      have hc : c = 'e' ∨ c = 'E' := by simpa [headIs] using hmark
      have exponent_of (sign ds : List Char) (hcs : cs = sign ++ ds)
          (hsign : sign = [] ∨ sign = ['+'] ∨ sign = ['-']) (hds : run Char.isDigit ds ≠ 0) :
          ∃ part rest, part ∈ exponent ∧ c :: cs = part ++ rest := by
        refine ⟨c :: (sign ++ ds.takeWhile Char.isDigit), ds.dropWhile Char.isDigit,
          mem_exponent.2 ⟨c, sign, _, rfl, hc, hsign, ?_, List.all_takeWhile⟩, ?_⟩
        · exact fun hnil => hds (congrArg List.length hnil)
        · rw [hcs, List.cons_append, List.append_assoc, List.takeWhile_append_dropWhile]
      rw [List.tail_cons] at hdigits
      split at hdigits
      · rename_i hsign
        cases cs with
        | nil => cases hsign
        | cons d cs =>
            have hd : d = '+' ∨ d = '-' := by simpa [headIs] using hsign
            refine exponent_of [d] cs rfl (.inr ?_) hdigits
            rcases hd with rfl | rfl <;> simp
      · exact exponent_of [] cs rfl (.inl rfl) hdigits

-- The digits behind the mark of a base are read to their end.
theorem basedLength_append (hmark : mark.toLower = mark ∧ mark.toUpper.toLower = mark)
    (h : part ∈ based mark isDigit) (hmore : headIs isDigit more = false) :
    basedLength mark isDigit (part ++ more) = some part.length := by
  obtain ⟨_, rfl, hrest⟩ := mem_exactly_mul.1 h
  obtain ⟨c, ds, rfl, hc, hds⟩ := mem_one_mul.1 hrest
  obtain ⟨hne, hall⟩ := mem_several.1 hds
  have hlower : c.toLower = mark := by
    simp only [Bool.or_eq_true, decide_eq_true_eq] at hc
    rcases hc with rfl | rfl
    · exact hmark.1
    · exact hmark.2
  have hlength : ds.length ≠ 0 := fun hzero => hne (List.length_eq_zero_iff.1 hzero)
  have htake : (("0".toList ++ c :: ds) ++ more).take 2 = ['0', c] := rfl
  have hdrop : (("0".toList ++ c :: ds) ++ more).drop 2 = ds ++ more := rfl
  have hzero : Char.toLower '0' = '0' := by decide
  have hpart : ("0".toList ++ c :: ds).length = 2 + ds.length := by
    rw [List.length_append, List.length_cons, Nat.add_comm ds.length, ← Nat.add_assoc]
    rfl
  simp only [basedLength, htake, hdrop, List.map_cons, List.map_nil, hlower, hzero, run_append hall hmore,
    decide_true, Bool.true_and, bne_iff_ne, ne_eq, hlength, not_false_eq_true, if_true, hpart]

-- What is read as a number in another base is one.
theorem based_of_basedLength (h : basedLength mark isDigit cs = some n) :
    ∃ part rest, part ∈ based mark isDigit ∧ cs = part ++ rest := by
  unfold basedLength at h
  dsimp only at h
  split at h
  · rename_i hcond
    simp only [Bool.and_eq_true, decide_eq_true_eq, bne_iff_ne] at hcond
    obtain ⟨hmark, hdigits⟩ := hcond
    match cs with
    | [] | [_] => simp at hmark
    | z :: c :: cs =>
        have htake : (z :: c :: cs).take 2 = [z, c] := rfl
        simp only [htake, List.map_cons, List.map_nil, List.cons.injEq, and_true] at hmark
        obtain rfl : z = '0' := by
          rcases toLower_cases z with hz | ⟨hz, hupper⟩
          · exact hz.symm.trans hmark.1
          · rw [hmark.1] at hupper
            exact hupper.symm
        have hc : (c = mark || c = mark.toUpper) = true := by
          rcases toLower_cases c with hc | ⟨-, hc⟩
          · simp [← hmark.2, hc]
          · simp [← hmark.2, hc]
        refine ⟨"0".toList ++ c :: cs.takeWhile isDigit, cs.dropWhile isDigit, mem_exactly_mul.2
          ⟨_, rfl, mem_one_mul.2 ⟨c, _, rfl, hc, mem_several.2 ⟨?_, List.all_takeWhile⟩⟩⟩, ?_⟩
        · exact fun hnil => hdigits (congrArg List.length hnil)
        · rw [List.append_assoc, List.cons_append, List.takeWhile_append_dropWhile]
          rfl
  · cases h

-- The number that begins with given digits.
theorem number_append (h : whole ∈ digits) (hmore : headIs Char.isDigit more = false)
    (hhex : basedLength 'x' isHexDigit (whole ++ more) = none)
    (hbin : basedLength 'b' (fun c => c = '0' || c = '1') (whole ++ more) = none) :
    number (whole ++ more) =
      if startsWith "." more then
        .token .float (whole.length + 1 + run Char.isDigit more.tail +
          exponentLength (more.drop (1 + run Char.isDigit more.tail)))
      else if exponentLength more = 0 then .token .integer whole.length
      else .token .float (whole.length + exponentLength more) := by
  have hwhole := run_append (mem_several.1 h).2 hmore
  rw [number, hhex, hbin]
  simp only [Option.or_none, hwhole, List.drop_left]

-- A number in another base has one digit in front of its mark.
theorem based_behind_digits {rest : List Char} (h : whole ∈ digits) (hpart : part ∈ based mark isDigit)
    (hmark : mark.isDigit = false ∧ mark.toUpper.isDigit = false)
    (hsplit : whole ++ more = part ++ rest) : ∃ c ds, part = whole ++ c :: ds ∧
      more = c :: ds ++ rest ∧ (c = mark ∨ c = mark.toUpper) := by
  obtain ⟨hne, hall⟩ := mem_several.1 h
  obtain ⟨_, rfl, hrest⟩ := mem_exactly_mul.1 hpart
  obtain ⟨c, ds, rfl, hc, hds⟩ := mem_one_mul.1 hrest
  have hc : c = mark ∨ c = mark.toUpper := by simpa using hc
  have hsplit : whole ++ more = '0' :: c :: (ds ++ rest) := hsplit
  match whole with
  | [] => exact absurd rfl hne
  | [d] =>
      obtain ⟨rfl, rfl⟩ := List.cons.inj hsplit
      exact ⟨c, ds, rfl, rfl, hc⟩
  | d :: e :: whole =>
      obtain rfl : e = c := (List.cons.inj (List.cons.inj hsplit).2).1
      have he : e.isDigit = true := List.all_eq_true.1 hall e (by simp)
      rcases hc with rfl | rfl
      · rw [hmark.1] at he
        cases he
      · rw [hmark.2] at he
        cases he

end Number

section Code

open Pattern

variable {r : Rule}

theorem isNameStart_of_isDigit {c : Char} (h : c.isDigit = true) : isNameStart c = false := by
  have hdigits : ∀ n < 58, 48 ≤ n → isNameStart (Char.ofNat n) = false := by decide
  simp only [Char.isDigit, Bool.and_eq_true, decide_eq_true_eq] at h
  have hc := hdigits c.toNat (Nat.lt_succ_of_le h.2) h.1
  rwa [Char.ofNat_toNat] at hc

theorem code_of_find? (h : (rules.find? fun r => r.applies cs) = some r) : code cs = r.scan cs := by
  rw [code, h]

theorem code_of_digit (h : headIs Char.isDigit cs = true) : code cs = number cs := by
  have hname : headIs isNameStart cs = false := by
    cases cs with
    | nil => rfl
    | cons c cs => exact isNameStart_of_isDigit h
  have hrule : (rules.find? fun r => r.applies cs) = some ⟨headIs Char.isDigit, number⟩ :=
    (List.find?_cons_of_neg (by simp [hname])).trans (List.find?_cons_of_pos h)
  exact code_of_find? hrule

theorem code_of_variable (h : headIs isNameStart more = true) :
    code ('$' :: more) = variableName ('$' :: more) := by
  have hrule : (rules.find? fun r => r.applies ('$' :: more)) =
      some ⟨fun cs => startsWith "$" cs && headIs isNameStart cs.tail, variableName⟩ := by
    iterate 2 refine (List.find?_cons_of_neg (by exact Bool.false_ne_true)).trans ?_
    exact List.find?_cons_of_pos h
  exact code_of_find? hrule

theorem code_of_fraction (h : headIs Char.isDigit more = true) :
    code ('.' :: more) = fractionNumber ('.' :: more) := by
  have hrule : (rules.find? fun r => r.applies ('.' :: more)) =
      some ⟨fun cs => startsWith "." cs && headIs Char.isDigit cs.tail, fractionNumber⟩ := by
    iterate 3 refine (List.find?_cons_of_neg (by exact Bool.false_ne_true)).trans ?_
    exact List.find?_cons_of_pos h
  exact code_of_find? hrule

theorem code_of_blockComment (h : startsWith "*" more = false) :
    code ("/*".toList ++ more) = blockComment .blockComment 2 ("/*".toList ++ more) := by
  have hrule : (rules.find? fun r => r.applies ("/*".toList ++ more)) =
      some ⟨startsWith "/*", blockComment .blockComment 2⟩ := by
    iterate 8 refine (List.find?_cons_of_neg (by exact Bool.false_ne_true)).trans ?_
    cases more with
    | nil => rfl
    | cons c more =>
        have hc : ('*' == c) = false := by simpa [startsWith, List.isPrefixOf] using h
        refine (List.find?_cons_of_neg ?_).trans
          ((List.find?_cons_of_neg ?_).trans (List.find?_cons_of_pos rfl))
        · change ¬('*' == c && ['/'].isPrefixOf more) = true
          simp [hc]
        · change ¬('*' == c && [].isPrefixOf more) = true
          simp [hc]
  exact code_of_find? hrule

theorem code_of_docComment (h : startsWith "/" more = false) :
    code ("/**".toList ++ more) = blockComment .docComment 3 ("/**".toList ++ more) := by
  have hrule : (rules.find? fun r => r.applies ("/**".toList ++ more)) =
      some ⟨startsWith "/**", blockComment .docComment 3⟩ := by
    iterate 8 refine (List.find?_cons_of_neg (by exact Bool.false_ne_true)).trans ?_
    refine (List.find?_cons_of_neg ?_).trans (List.find?_cons_of_pos rfl)
    exact Bool.eq_false_iff.1 h
  exact code_of_find? hrule

theorem code_of_closedDocComment (h : startsWith "/" more = true) :
    code ("/**".toList ++ more) = .token .docComment 4 := by
  have hrule : (rules.find? fun r => r.applies ("/**".toList ++ more)) =
      some ⟨startsWith "/**/", fun _ => .token .docComment 4⟩ := by
    iterate 8 refine (List.find?_cons_of_neg (by exact Bool.false_ne_true)).trans ?_
    exact List.find?_cons_of_pos h
  exact code_of_find? hrule

theorem startsWith_iff {s : String} : startsWith s cs = true ↔ ∃ more, cs = s.toList ++ more := by
  rw [startsWith, List.isPrefixOf_iff_prefix]
  exact exists_congr fun more => eq_comm

theorem startsWith_trans {s t : String} (h : startsWith t cs = true)
    (hs : startsWith s t.toList = true) : startsWith s cs = true :=
  List.isPrefixOf_iff_prefix.2
    ((List.isPrefixOf_iff_prefix.1 hs).trans (List.isPrefixOf_iff_prefix.1 h))

-- No punctuation contains part of a name.
theorem not_front_of_isNamePart {c : Char} (hc : c ∈ text) (hpart : isNamePart c = true) :
    ∀ s ∈ Symbol.spellings, ¬text <+: s.1.toList := by
  have hspellings : ∀ s ∈ Symbol.spellings, s.1.toList.all (!isNamePart ·) = true := by decide
  intro s hs hfront
  have hnot := List.all_eq_true.1 (hspellings s hs) c (hfront.subset hc)
  simp [hpart] at hnot

-- Every rule is for a pattern that fits what no punctuation begins with.
theorem fits_of_applies : ∀ r ∈ rules, ∀ cs, r.applies cs = true → ∃ (p : Pattern) (text : List Char),
    p.Fits cs text ∧ ∀ s ∈ Symbol.spellings, ¬text <+: s.1.toList := by
  have fixed (p : Pattern) (text : String) (hmem : text.toList ∈ p.language) (hne : text.toList ≠ [])
      (hplain : ∀ s ∈ Symbol.spellings, startsWith text s.1.toList = false) (cs : List Char)
      (h : startsWith text cs = true) : ∃ (p : Pattern) (text : List Char),
        p.Fits cs text ∧ ∀ s ∈ Symbol.spellings, ¬text <+: s.1.toList := by
    refine ⟨p, text.toList, ⟨hmem, hne, List.isPrefixOf_iff_prefix.1 h⟩, fun s hs hfront => ?_⟩
    exact absurd (List.isPrefixOf_iff_prefix.2 hfront) (Bool.eq_false_iff.1 (hplain s hs))
  have begun (p : Pattern) (text more : List Char) (c : Char) (hmem : text ++ [c] ∈ p.language)
      (hpart : isNamePart c = true) : ∃ (p : Pattern) (other : List Char),
        p.Fits (text ++ c :: more) other ∧ ∀ s ∈ Symbol.spellings, ¬other <+: s.1.toList :=
    ⟨p, text ++ [c], ⟨hmem, by simp, by simp⟩, not_front_of_isNamePart (by simp) hpart⟩
  have named {c : Char} (hc : isNameStart c = true) : [c] ∈ name ∧ isNamePart c = true := by
    have hname : [c] ∈ name := mem_one_mul_many.2 ⟨c, [], rfl, hc, rfl⟩
    exact ⟨hname, by simpa using (mem_name.1 hname).2⟩
  have numbered {c : Char} (hc : c.isDigit = true) : [c] ∈ digits ∧ isNamePart c = true :=
    ⟨mem_several.2 ⟨by simp, by simpa using hc⟩, by simp [isNamePart, Char.isAlphanum, hc]⟩
  have headed {p : Char → Bool} {cs : List Char} (h : headIs p cs = true) :
      ∃ c more, cs = c :: more ∧ p c = true := by
    cases cs with
    | nil => cases h
    | cons c more => exact ⟨c, more, rfl, h⟩
  simp only [rules, List.forall_mem_cons]
  refine ⟨fun cs h => ?_, fun cs h => ?_, fun cs h => ?_, fun cs h => ?_,
    fixed (.opener .singleQuote) _ rfl (by decide) (by decide),
    fixed (.opener .doubleQuote) _ rfl (by decide) (by decide),
    fixed (.opener .hash) _ rfl (by decide) (by decide),
    fixed (.opener .slashes) _ rfl (by decide) (by decide),
    fun cs h => fixed (.opener .docComment) _ rfl (by decide) (by decide) cs (startsWith_trans h rfl),
    fixed (.opener .docComment) _ rfl (by decide) (by decide),
    fixed (.opener .blockComment) _ rfl (by decide) (by decide),
    fixed (.opener .heredoc) _ rfl (by decide) (by decide),
    fixed .closeTag _ rfl (by decide) (by decide), by simp⟩
  · obtain ⟨c, more, rfl, hc⟩ := headed h
    exact begun .identifier [] more c (named hc).1 (named hc).2
  · obtain ⟨c, more, rfl, hc⟩ := headed h
    exact begun .decimal [] more c (numbered hc).1 (numbered hc).2
  · obtain ⟨hsign, hname⟩ := Bool.and_eq_true_iff.1 h
    obtain ⟨_, rfl⟩ := startsWith_iff.1 hsign
    obtain ⟨c, more, rfl, hc⟩ := headed hname
    exact begun .variableName ['$'] more c (mem_exactly_mul.2 ⟨_, rfl, (named hc).1⟩) (named hc).2
  · obtain ⟨hpoint, hdigit⟩ := Bool.and_eq_true_iff.1 h
    obtain ⟨_, rfl⟩ := startsWith_iff.1 hpoint
    obtain ⟨c, more, rfl, hc⟩ := headed hdigit
    refine begun .fraction ['.'] more c (mem_exactly_mul.2 ⟨_, rfl, ?_⟩) (numbered hc).2
    exact ⟨[c], (numbered hc).1, [], .inl rfl, rfl⟩

-- Where no pattern fits, nothing can be read.
theorem code_of_not_fits (h : ∀ (p : Pattern) text, ¬p.Fits cs text) : code cs = .unexpected := by
  rw [code]
  cases hrule : rules.find? fun r => r.applies cs with
  | some r =>
      obtain ⟨p, text, hp, -⟩ := fits_of_applies r (List.mem_of_find?_eq_some hrule) cs
        (List.find?_some (p := fun r : Rule => r.applies cs) hrule)
      exact absurd hp (h p text)
  | none =>
      have hne : ∀ s ∈ Symbol.spellings, s.1.toList ≠ [] := by decide
      have hspelling : (Symbol.spellings.find? fun s => startsWith s.1 cs) = none := by
        refine List.find?_eq_none.2 fun s hs hfits => ?_
        exact h (.symbol s.1 s.2 hs) s.1.toList ⟨rfl, hne s hs, List.isPrefixOf_iff_prefix.1 hfits⟩
      simp only [mark, hspelling]

end Code

end Scan

namespace Pattern

namespace Longest

variable {p : Pattern}

-- What a pattern that fits would take does not follow.
theorem not_headIs (h : p.Longest (text ++ more) text) {q : Pattern} (hq : text ∈ q.language)
    {f : Char → Bool} (htakes : Takes f q.language) : headIs f more = false := by
  cases more with
  | nil => rfl
  | cons c more =>
      refine Bool.eq_false_iff.2 fun hc => ?_
      exact absurd (h.ends (htakes text hq c hc) (show c :: more = [c] ++ more from rfl)) (by simp)

theorem not_startsWith {s : String} (h : p.Longest (text ++ more) text) {q : Pattern}
    (hq : text ++ s.toList ∈ q.language) (hs : s.toList ≠ []) : startsWith s more = false := by
  refine Bool.eq_false_iff.2 fun hmore => ?_
  obtain ⟨rest, hsplit⟩ := startsWith_iff.1 hmore
  exact hs (h.ends hq hsplit)

theorem code_symbol {s : String} {symbol : Symbol} {spelled : (s, symbol) ∈ Symbol.spellings}
    (h : (Pattern.symbol s symbol spelled).Longest (text ++ more) text) :
    code (text ++ more) = .token (.symbol symbol) text.length := by
  have hsorted : Symbol.spellings.Pairwise fun a b => ¬a.1.toList <+: b.1.toList := by decide +kernel
  obtain rfl : text = s.toList := h.mem
  have hrule : (rules.find? fun r => r.applies (s.toList ++ more)) = none := by
    refine List.find?_eq_none.2 fun r hr happlies => ?_
    obtain ⟨q, other, hq, hplain⟩ := fits_of_applies r hr _ happlies
    exact hplain _ spelled (h.front_of_fits hq)
  have hspelling : (Symbol.spellings.find? fun t => startsWith t.1 (s.toList ++ more)) =
      some (s, symbol) := by
    obtain ⟨front, back, hsplit⟩ := List.append_of_mem spelled
    refine List.find?_eq_some_iff_append.2 ⟨?_, front, back, hsplit, fun t ht => ?_⟩
    · exact startsWith_iff.2 ⟨more, rfl⟩
    · rw [hsplit, List.pairwise_append] at hsorted
      have ht' : (t.1, t.2) ∈ Symbol.spellings := hsplit ▸ List.mem_append_left _ ht
      have hne : ∀ s ∈ Symbol.spellings, s.1.toList ≠ [] := by decide
      rw [Bool.not_eq_true']
      refine Bool.eq_false_iff.2 fun hfits => ?_
      refine hsorted.2.2 t ht _ List.mem_cons_self (h.front_of_fits (q := .symbol t.1 t.2 ht') ?_)
      exact ⟨rfl, hne t ht', List.isPrefixOf_iff_prefix.1 hfits⟩
  rw [code, hrule, mark, hspelling]
  rw [String.length_toList]

section Number

variable {mark : Char} {isDigit : Char → Bool} {whole tail : List Char}

-- A decimal number does not begin a longer number in another base.
theorem not_based (h : p.Longest (whole ++ tail ++ more) (whole ++ tail)) {q : Pattern}
    (hq : q.language = based mark isDigit) (hwhole : whole ∈ digits)
    (hmark : mark.isDigit = false ∧ mark.toUpper.isDigit = false)
    (htail : ∀ c ∈ tail.head?, c ≠ mark ∧ c ≠ mark.toUpper) :
    basedLength mark isDigit (whole ++ (tail ++ more)) = none := by
  cases hbased : basedLength mark isDigit (whole ++ (tail ++ more)) with
  | none => rfl
  | some n =>
      obtain ⟨part, rest, hpart, hsplit⟩ := based_of_basedLength hbased
      obtain ⟨c, ds, rfl, hmore, hc⟩ := based_behind_digits hwhole hpart hmark hsplit
      cases tail with
      | nil =>
          rw [← hq] at hpart
          have hnext : whole ++ [] ++ c :: ds ∈ q.language := by simpa using hpart
          cases h.ends hnext hmore
      | cons d tail =>
          obtain rfl : d = c := (List.cons.inj hmore).1
          have hd := htail d (by simp)
          exact absurd hc (not_or.2 hd)

-- The number that a text of digits begins, with a point, an exponent or nothing behind them.
theorem code_digits (h : p.Longest (whole ++ tail ++ more) (whole ++ tail)) (hwhole : whole ∈ digits)
    (hmore : headIs Char.isDigit (tail ++ more) = false)
    (htail : ∀ c ∈ tail.head?, c = '.' ∨ c = 'e' ∨ c = 'E') :
    code (whole ++ (tail ++ more)) =
      if startsWith "." (tail ++ more) then
        .token .float (whole.length + 1 + run Char.isDigit (tail ++ more).tail +
          exponentLength ((tail ++ more).drop (1 + run Char.isDigit (tail ++ more).tail)))
      else if exponentLength (tail ++ more) = 0 then .token .integer whole.length
      else .token .float (whole.length + exponentLength (tail ++ more)) := by
  obtain ⟨hne, hall⟩ := mem_several.1 hwhole
  have hdigit : headIs Char.isDigit (whole ++ (tail ++ more)) = true := by
    cases whole with
    | nil => exact absurd rfl hne
    | cons c whole => exact List.all_eq_true.1 hall c List.mem_cons_self
  have hhex := h.not_based (q := .hexadecimal) rfl hwhole (by decide) fun c hc => by
    rcases htail c hc with rfl | rfl | rfl <;> decide
  have hbin := h.not_based (q := .binary) rfl hwhole (by decide) fun c hc => by
    rcases htail c hc with rfl | rfl | rfl <;> decide
  rw [code_of_digit hdigit]
  exact number_append hwhole hmore hhex hbin

-- An optional exponent at the end of a number is read to its end, and there is no other one
-- where it is missing.
theorem exponentLength_ends {front part : List Char}
    (h : p.Longest (front ++ part ++ more) (front ++ part)) (hpart : part ∈ 1 + exponent)
    (hmore : headIs Char.isDigit more = false) {q : Pattern}
    (hq : ∀ e ∈ exponent, front ++ e ∈ q.language) :
    exponentLength (part ++ more) = part.length ∧ headIs Char.isDigit (part ++ more) = false := by
  rcases hpart with hnil | hpart
  · obtain rfl : part = [] := hnil
    rw [List.nil_append]
    refine ⟨?_, hmore⟩
    by_contra hne
    obtain ⟨e, rest, he, hsplit⟩ := exponent_of_exponentLength hne
    refine ne_nil_of_exponent he (h.ends (q := q) ?_ hsplit)
    rw [List.append_nil]
    exact hq e he
  · refine ⟨exponentLength_append hpart hmore, ?_⟩
    obtain ⟨c, sign, ds, rfl, hc, -⟩ := mem_exponent.1 hpart
    rcases hc with rfl | rfl <;> rfl

theorem code_decimal (h : Pattern.decimal.Longest (text ++ more) text) :
    code (text ++ more) = .token .integer text.length := by
  have hdigits : text ∈ digits := h.mem
  have hmore : headIs Char.isDigit more = false := h.not_headIs h.mem takes_several
  have hpointed : text ++ ".".toList ∈ Pattern.pointed.language :=
    ⟨text, hdigits, _, ⟨_, rfl, [], ⟨[], mem_many.2 rfl, [], .inl rfl, rfl⟩, rfl⟩, rfl⟩
  have hpoint : startsWith "." more = false := h.not_startsWith hpointed (by decide)
  have h : Pattern.decimal.Longest (text ++ [] ++ more) (text ++ []) := by rwa [List.append_nil]
  obtain ⟨hexponent, -⟩ := h.exponentLength_ends (q := .scaled) (.inl rfl) hmore fun e he =>
    ⟨text, hdigits, e, he, rfl⟩
  have hcode := h.code_digits hdigits hmore (by simp)
  rw [List.nil_append] at hcode hexponent
  rw [hcode, hpoint, hexponent]
  rfl

theorem code_scaled (h : Pattern.scaled.Longest (text ++ more) text) :
    code (text ++ more) = .token .float text.length := by
  obtain ⟨whole, hwhole, part, hpart, rfl⟩ := h.mem
  have hmore : headIs Char.isDigit more = false :=
    h.not_headIs h.mem takes_exponent.mul
  obtain ⟨hexponent, hdigit⟩ := h.exponentLength_ends (q := .scaled) (.inr hpart) hmore fun e he =>
    ⟨whole, hwhole, e, he, rfl⟩
  have hne : part.length ≠ 0 := fun hzero => ne_nil_of_exponent hpart (List.length_eq_zero_iff.1 hzero)
  obtain ⟨c, sign, ds, rfl, hc, -⟩ := mem_exponent.1 hpart
  have hpoint : startsWith "." (c :: (sign ++ ds) ++ more) = false := by
    rcases hc with rfl | rfl <;> rfl
  have hcode := h.code_digits hwhole hdigit (by simpa using .inr hc)
  rw [hpoint, hexponent, if_neg Bool.false_ne_true, if_neg hne] at hcode
  rw [List.append_assoc, hcode, List.length_append]

-- The digits behind the point of a number, and the exponent behind them.
theorem fraction_ends {front fs part : List Char}
    (h : p.Longest (front ++ '.' :: (fs ++ part) ++ more) (front ++ '.' :: (fs ++ part)))
    (hfs : fs ∈ many Char.isDigit) (hpart : part ∈ 1 + exponent)
    (hmore : headIs Char.isDigit more = false) {q : Pattern}
    (hq : ∀ e ∈ exponent, front ++ '.' :: (fs ++ e) ∈ q.language) :
    run Char.isDigit (fs ++ part ++ more) = fs.length ∧
      exponentLength (('.' :: (fs ++ part) ++ more).drop (1 + fs.length)) = part.length := by
  have hassoc (e : List Char) : front ++ '.' :: (fs ++ e) = front ++ '.' :: fs ++ e := by simp
  have hdrop : ('.' :: (fs ++ part) ++ more).drop (1 + fs.length) = part ++ more := by
    rw [Nat.add_comm, List.cons_append, List.drop_succ_cons, List.append_assoc, List.drop_left]
  rw [hassoc] at h
  obtain ⟨hexponent, hdigit⟩ := h.exponentLength_ends (q := q) hpart hmore fun e he => by
    rw [← hassoc]
    exact hq e he
  refine ⟨?_, by rw [hdrop, hexponent]⟩
  rw [List.append_assoc]
  exact run_append (mem_many.1 hfs) hdigit

theorem code_pointed (h : Pattern.pointed.Longest (text ++ more) text) :
    code (text ++ more) = .token .float text.length := by
  have hmore : headIs Char.isDigit more = false :=
    h.not_headIs h.mem (takes_many.optional takes_exponent).mul.mul
  obtain ⟨whole, hwhole, _, ⟨_, rfl, _, ⟨fs, hfs, part, hpart, rfl⟩, rfl⟩, rfl⟩ := h.mem
  have htext : ".".toList ++ (fs ++ part) = '.' :: (fs ++ part) := rfl
  dsimp only at h ⊢
  rw [htext] at h ⊢
  obtain ⟨hrun, hexponent⟩ := h.fraction_ends (q := .pointed) hfs hpart hmore fun e he =>
    ⟨whole, hwhole, _, ⟨_, rfl, _, ⟨fs, hfs, e, .inr he, rfl⟩, rfl⟩, rfl⟩
  have hcode := h.code_digits hwhole rfl (by simp)
  have hpoint : startsWith "." ('.' :: (fs ++ part) ++ more) = true := startsWith_iff.2 ⟨_, rfl⟩
  rw [if_pos hpoint] at hcode
  simp only [List.cons_append, List.tail_cons, hrun] at hcode hexponent
  rw [hexponent] at hcode
  rw [List.append_assoc, List.cons_append, hcode]
  simp only [List.length_append, List.length_cons]
  congr 1
  omega

theorem code_fraction (h : Pattern.fraction.Longest (text ++ more) text) :
    code (text ++ more) = .token .float text.length := by
  have hmore : headIs Char.isDigit more = false :=
    h.not_headIs h.mem (takes_several.optional takes_exponent).mul
  obtain ⟨_, rfl, _, ⟨fs, hfs, part, hpart, rfl⟩, rfl⟩ := h.mem
  obtain ⟨hne, hall⟩ := mem_several.1 hfs
  have htext : ".".toList ++ (fs ++ part) = [] ++ '.' :: (fs ++ part) := rfl
  dsimp only at h ⊢
  rw [htext] at h ⊢
  obtain ⟨hrun, hexponent⟩ := h.fraction_ends (q := .fraction) (mem_many.2 hall) hpart hmore fun e he =>
    ⟨_, rfl, _, ⟨fs, hfs, e, .inr he, rfl⟩, rfl⟩
  have hdigit : headIs Char.isDigit (fs ++ part ++ more) = true := by
    cases fs with
    | nil => exact absurd rfl hne
    | cons c fs => exact List.all_eq_true.1 hall c List.mem_cons_self
  rw [List.nil_append, List.cons_append, code_of_fraction hdigit, fractionNumber]
  simp only [List.tail_cons, hrun, List.cons_append] at hexponent ⊢
  rw [hexponent]
  simp only [List.length_append, List.length_cons]
  congr 1
  omega

theorem code_hexadecimal (h : Pattern.hexadecimal.Longest (text ++ more) text) :
    code (text ++ more) = .token .integer text.length := by
  have hmore : headIs isHexDigit more = false := h.not_headIs h.mem takes_several.mul.mul
  have hbased := basedLength_append (by decide) h.mem hmore
  obtain ⟨_, rfl, ds, hds, rfl⟩ := h.mem
  rw [code_of_digit rfl, number, hbased]
  rfl

theorem code_binary (h : Pattern.binary.Longest (text ++ more) text) :
    code (text ++ more) = .token .integer text.length := by
  have hmore : headIs (fun c => c = '0' || c = '1') more = false := h.not_headIs h.mem takes_several.mul.mul
  have hbased := basedLength_append (by decide) h.mem hmore
  obtain ⟨_, rfl, _, ⟨_, ⟨c, hc, rfl⟩, ds, hds, rfl⟩, rfl⟩ := h.mem
  have hhex : basedLength 'x' isHexDigit ("0".toList ++ ([c] ++ ds) ++ more) = none := by
    have hc : c = 'b' ∨ c = 'B' := by simpa using hc
    rcases hc with rfl | rfl <;> rfl
  rw [code_of_digit rfl, number, hhex, hbased]
  rfl

end Number

section Name

theorem code_variableName (h : Pattern.variableName.Longest (text ++ more) text) :
    code (text ++ more) = .token .variableName text.length := by
  have hmore : headIs isNamePart more = false := h.not_headIs h.mem takes_name.mul
  obtain ⟨_, rfl, word, hword, rfl⟩ := h.mem
  obtain ⟨hstart, hparts⟩ := mem_name.1 hword
  have hstart : headIs isNameStart (word ++ more) = true := by
    cases word with
    | nil => cases hstart
    | cons c word => exact hstart
  have hcode := code_of_variable hstart
  rw [Scan.variableName, List.tail_cons, run_append hparts hmore, Nat.add_comm] at hcode
  exact hcode

theorem code_keyword {k : Keyword} (h : (Pattern.keyword k).Longest (text ++ more) text) :
    code (text ++ more) = .token (.keyword k) text.length := by
  have hlower : text.map Char.toLower = k.word.toList := h.mem
  have hname : text ∈ name := mem_name.2 (name_of_lowered hlower)
  have hmore : headIs isNamePart more = false := h.not_headIs (q := .identifier) hname takes_name
  rw [code_word (mem_name.1 hname).1 (mem_name.1 hname).2 hmore, Keyword.ofName?_eq_some.2 hlower]
  rfl

theorem code_identifier (h : Pattern.identifier.Longest (text ++ more) text) :
    code (text ++ more) = .token .identifier text.length := by
  have hmore : headIs isNamePart more = false := h.not_headIs h.mem takes_name
  rw [code_word (mem_name.1 h.mem).1 (mem_name.1 h.mem).2 hmore]
  cases hkeyword : Keyword.ofName? (String.ofList text) with
  | none => rfl
  | some k =>
      -- a keyword goes before a name
      have hfits : (Pattern.keyword k).Fits (text ++ more) text :=
        ⟨Keyword.ofName?_eq_some.1 hkeyword, h.fits.nonempty, h.fits.front⟩
      exact absurd (h.literal _ text hfits rfl rfl) (by decide)

end Name

theorem code_opener {o : Opener} (h : (Pattern.opener o).Longest (text ++ more) text) :
    code (text ++ more) = o.read more := by
  have comment (kind : TokenKind) (opener : Nat) (cs : List Char) : blockComment kind opener cs =
      (seek (startsWith "*/") (cs.drop opener)).elim (.unterminated .commentEnd) fun n =>
        .token kind (opener + n + 2) := by
    rw [blockComment]
    cases seek (startsWith "*/") (cs.drop opener) <;> rfl
  have quoted (quote : Char) (closer : Closer) (hquote : isQuote quote = true) :
      quotedString quote closer (quote :: more) =
        (quotedLength quote more).elim (.unterminated closer) fun n => .token .string (1 + n) := by
    simp only [quotedString_eq hquote, List.tail_cons, Nat.add_comm 1]
  obtain rfl : text = o.text.toList := h.mem
  cases o with
  | slashes | hash | heredoc => rfl
  | singleQuote => exact quoted '\'' .singleQuote rfl
  | doubleQuote => exact quoted '"' .doubleQuote rfl
  | blockComment =>
      have hdoc : startsWith "*" more = false :=
        h.not_startsWith (q := .opener .docComment) rfl (by decide)
      exact (code_of_blockComment hdoc).trans (comment ..)
  | docComment =>
      cases hslash : startsWith "/" more with
      | true =>
          rw [Opener.read, hslash]
          exact code_of_closedDocComment hslash
      | false =>
          rw [Opener.read, hslash]
          exact (code_of_docComment hslash).trans (comment ..)

end Longest

-- The lexer takes the longest text that some pattern fits.
theorem Longest.code_eq {p : Pattern} (h : p.Longest (text ++ more) text) :
    code (text ++ more) = p.read text more := by
  cases p with
  | opener o => exact h.code_opener
  | closeTag =>
      obtain rfl : text = "?>".toList := h.mem
      rfl
  | symbol s symbol spelled => exact h.code_symbol
  | keyword k => exact h.code_keyword
  | variableName => exact h.code_variableName
  | identifier => exact h.code_identifier
  | hexadecimal => exact h.code_hexadecimal
  | binary => exact h.code_binary
  | decimal => exact h.code_decimal
  | pointed => exact h.code_pointed
  | scaled => exact h.code_scaled
  | fraction => exact h.code_fraction

end Pattern

end Census
