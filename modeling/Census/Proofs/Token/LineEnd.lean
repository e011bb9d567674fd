import Census.Proofs.Text.LineEnd
import Census.Proofs.Token.Reading
import Mathlib.Data.List.Find

namespace Census

open Text

namespace Scan

variable {cs : List Char}

-- What is found when a text is read with carriage returns.
def Found.stretch (cs : List Char) : Found → Found
  | .token kind n => .token kind (Text.stretch n cs)
  | .unterminated closer => .unterminated closer
  | .unexpected => .unexpected

-- A token on one line keeps its length.
theorem Found.stretch_of_clear {found : Found}
    (h : ∀ kind n, found = .token kind n → Clear n cs) : found.stretch cs = found := by
  cases found with
  | token kind n => rw [Found.stretch, (h kind n rfl).stretch_eq]
  | unterminated closer => rfl
  | unexpected => rfl

theorem headIs_crlf {p : Char → Bool} (hp : p '\r' = p '\n') (cs : List Char) :
    headIs p (crlf cs) = headIs p cs := by
  cases cs with
  | nil => rfl
  | cons c cs =>
      rcases eq_or_ne c '\n' with rfl | hc
      · simp [headIs, hp]
      · simp [headIs, crlf_cons hc]

theorem startsWith_crlf {s : String} (h : Inline s.toList) (cs : List Char) :
    startsWith s (crlf cs) = startsWith s cs := h.isPrefixOf_crlf cs

theorem lowered_crlf {tag : List Char} (h : Inline tag) (cs : List Char) :
    ((crlf cs).take tag.length).map Char.toLower = tag ↔
      (cs.take tag.length).map Char.toLower = tag := by
  induction tag generalizing cs with
  | nil => simp
  | cons x tag ih =>
      obtain ⟨hx, htag⟩ := List.forall_mem_cons.1 h
      cases cs with
      | nil => rfl
      | cons c cs =>
          rcases eq_or_ne c '\n' with rfl | hc
          · have hreturn : '\r'.toLower ≠ x := by
              rintro rfl
              cases hx
            have hbreak : '\n'.toLower ≠ x := by
              rintro rfl
              cases hx
            simp only [crlf_break, List.length_cons, List.take_succ_cons, List.map_cons,
              List.cons.injEq, hreturn, hbreak, false_and]
          · simp only [crlf_cons hc, List.length_cons, List.take_succ_cons, List.map_cons,
              List.cons.injEq, ih htag]

theorem word_crlf (cs : List Char) : word (crlf cs) = (word cs).stretch cs := by
  rw [Found.stretch_of_clear fun _ _ => clear_of_word]
  have hname : Unbroken isNamePart := by decide
  rw [word, hname.takeWhile_crlf, word]

theorem exponentLength_crlf (cs : List Char) : exponentLength (crlf cs) = exponentLength cs := by
  have hdigit : Unbroken Char.isDigit := by decide
  unfold exponentLength
  rw [headIs_crlf (by decide)]
  cases hmarked : headIs (fun c => c = 'e' || c = 'E') cs with
  | false => rfl
  | true =>
      have hmark : Clear 1 cs := clear_of_headIs hmarked (by decide)
      have hsign := hmark.add_tail (clear_sign cs.tail)
      rw [hmark.tail_crlf, headIs_crlf (by decide)]
      dsimp only
      rw [hsign.drop_crlf, hdigit.run_crlf]

theorem basedLength_crlf {mark : Char} {isDigit : Char → Bool} (hmark : isBreak mark = false)
    (hdigit : Unbroken isDigit) (cs : List Char) :
    basedLength mark isDigit (crlf cs) = basedLength mark isDigit cs := by
  have htag : Inline ['0', mark] :=
    List.forall_mem_cons.2 ⟨rfl, List.forall_mem_singleton.2 hmark⟩
  have hlowered : ((crlf cs).take 2).map Char.toLower = ['0', mark] ↔
      (cs.take 2).map Char.toLower = ['0', mark] := lowered_crlf htag cs
  unfold basedLength
  by_cases h : (cs.take 2).map Char.toLower = ['0', mark]
  · have hmarked : Clear 2 cs := clear_of_lowered (n := 2) rfl h htag
    rw [hmarked.drop_crlf, hdigit.run_crlf]
    simp only [hlowered]
  · simp only [hlowered, h, decide_false, Bool.false_and, Bool.false_eq_true, if_false]

theorem number_crlf (cs : List Char) : number (crlf cs) = (number cs).stretch cs := by
  rw [Found.stretch_of_clear fun _ _ => clear_of_number]
  have hdigit : Unbroken Char.isDigit := by decide
  have hwhole := clear_run hdigit cs
  unfold number
  rw [basedLength_crlf (by decide) (by decide), basedLength_crlf (by decide) (by decide),
    hdigit.run_crlf]
  dsimp only
  rw [hwhole.drop_crlf, startsWith_crlf (by decide), exponentLength_crlf]
  generalize cs.drop (run Char.isDigit cs) = rest
  cases hpoint : startsWith "." rest with
  | false => rfl
  | true =>
      have hclear : Clear 1 rest := clear_of_startsWith hpoint (by decide)
      have hfraction := hclear.add_tail (clear_run hdigit rest.tail)
      rw [hclear.tail_crlf, hdigit.run_crlf, hfraction.drop_crlf, exponentLength_crlf]

theorem fractionNumber_crlf (h : startsWith "." cs = true) :
    fractionNumber (crlf cs) = (fractionNumber cs).stretch cs := by
  rw [Found.stretch_of_clear fun _ _ => clear_of_fractionNumber h]
  have hdigit : Unbroken Char.isDigit := by decide
  have hclear : Clear 1 cs := clear_of_startsWith h (by decide)
  have hfraction := hclear.add_tail (clear_run hdigit cs.tail)
  rw [fractionNumber, hclear.tail_crlf, hdigit.run_crlf, hfraction.drop_crlf, exponentLength_crlf,
    fractionNumber]

theorem variableName_crlf (h : startsWith "$" cs = true) :
    variableName (crlf cs) = (variableName cs).stretch cs := by
  rw [Found.stretch_of_clear fun _ _ => clear_of_variableName h]
  have hname : Unbroken isNamePart := by decide
  have hclear : Clear 1 cs := clear_of_startsWith h (by decide)
  rw [variableName, hclear.tail_crlf, hname.run_crlf, variableName]

theorem mark_crlf (cs : List Char) : mark (crlf cs) = (mark cs).stretch cs := by
  rw [Found.stretch_of_clear fun _ _ => clear_of_mark]
  have hspellings : ∀ s ∈ Symbol.spellings, Inline s.1.toList := by decide
  have hfind : (Symbol.spellings.find? fun s => startsWith s.1 (crlf cs)) =
      Symbol.spellings.find? fun s => startsWith s.1 cs :=
    List.find?_congr fun s hs => startsWith_crlf (hspellings s hs) cs
  rw [mark, hfind, mark]

-- A line comment ends at either character of a line break.
theorem lineCommentLength_crlf (cs : List Char) :
    lineCommentLength (crlf cs) = lineCommentLength cs := by
  let ends (r : List Char) : Bool := startsWith "\n" r || startsWith "\r" r || startsWith "?>" r
  have hends (cs : List Char) : ends (crlf cs) = ends cs := by
    have htag := startsWith_crlf (s := "?>") (by decide) cs
    dsimp only [ends]
    rw [htag]
    cases cs with
    | nil => rfl
    | cons c cs =>
        rcases eq_or_ne c '\n' with rfl | hc
        · rfl
        · rw [crlf_cons hc]
          rfl
  exact (seek_getD_crlf hends (fun _ _ => rfl) cs).trans (clear_lineCommentLength cs).stretch_eq

theorem lineComment_crlf {opener : String} (hopener : Inline opener.toList)
    (h : startsWith opener cs = true) : lineComment opener.toList.length (crlf cs) =
      (lineComment opener.toList.length cs).stretch cs := by
  rw [Found.stretch_of_clear fun _ _ => clear_of_lineComment hopener h, lineComment,
    (clear_of_startsWith h hopener).drop_crlf, lineCommentLength_crlf, lineComment]

theorem blockComment_crlf {k : TokenKind} {opener : String} (hopener : Inline opener.toList)
    (h : startsWith opener cs = true) : blockComment k opener.toList.length (crlf cs) =
      (blockComment k opener.toList.length cs).stretch cs := by
  have hclear := clear_of_startsWith h hopener
  have hseek := seek_crlf (fun cs => startsWith_crlf (s := "*/") (by decide) cs) (fun cs hq => hq)
    (cs.drop opener.toList.length)
  rw [blockComment, hclear.drop_crlf, hseek, blockComment]
  cases hn : seek (startsWith "*/") (cs.drop opener.toList.length) with
  | none => rfl
  | some n =>
      have hend : Clear 2 (cs.drop (opener.toList.length + n)) := by
        rw [← List.drop_drop]
        exact clear_of_startsWith (s := "*/") (seek_holds hn) (by decide)
      simp only [Option.map_some, Found.stretch, stretch_add, hclear.stretch_eq, hend.stretch_eq]

theorem quotedLength_crlf {quote : Char} (hquote : isBreak quote = false) (cs : List Char) :
    quotedLength quote (crlf cs) = (quotedLength quote cs).map (stretch · cs) := by
  have hreturn : '\r' ≠ quote := by
    rintro rfl
    cases hquote
  have hbreak : '\n' ≠ quote := by
    rintro rfl
    cases hquote
  induction cs using quotedLength.induct quote with
  | case1 => rfl
  | case2 => rfl
  | case3 c rest ih =>
      rw [crlf_cons (by decide), quotedLength_pair]
      rcases eq_or_ne c '\n' with rfl | hc
      · -- the backslash takes the carriage return, and the line feed stands for itself
        rw [crlf_break, quotedLength_pair, quotedLength_other (by decide) hbreak, ih]
        simp [Function.comp_def, stretch_cons (c := '\\')]
      · rw [crlf_cons hc, quotedLength_pair, ih]
        simp [Function.comp_def, stretch_cons (c := '\\'), stretch_cons hc]
  | case4 rest hne =>
      rw [crlf_cons hbreak.symm, quotedLength_quote hne, quotedLength_quote hne]
      simp [stretch_cons hbreak.symm]
  | case5 c rest hne hother ih =>
      rw [quotedLength_other hne hother]
      rcases eq_or_ne c '\n' with rfl | hc
      · rw [crlf_break, quotedLength_other (by decide) hreturn, quotedLength_other (by decide) hbreak,
          ih]
        simp [Function.comp_def]
      · rw [crlf_cons hc, quotedLength_other hne hother, ih]
        simp [Function.comp_def, stretch_cons hc]

theorem quotedString_crlf {quote : Char} (closer : Closer) (hquote : isQuote quote = true)
    (hclear : Clear 1 cs) :
    quotedString quote closer (crlf cs) = (quotedString quote closer cs).stretch cs := by
  rw [quotedString_eq hquote, hclear.tail_crlf, quotedLength_crlf (isBreak_of_isQuote hquote),
    quotedString_eq hquote]
  cases quotedLength quote cs.tail with
  | none => rfl
  | some n =>
      simp only [Option.map_some, Option.elim_some, Found.stretch]
      rw [Nat.add_comm n 1, stretch_add, hclear.stretch_eq, List.drop_one, Nat.add_comm]

theorem head?_crlf_iff {c : Char} (hc : isBreak c = false) (cs : List Char) :
    (crlf cs).head? = some c ↔ cs.head? = some c := by
  cases cs with
  | nil => rfl
  | cons d cs =>
      rcases eq_or_ne d '\n' with rfl | hd
      · have hne : '\r' ≠ c ∧ '\n' ≠ c := by constructor <;> rintro rfl <;> cases hc
        simp [hne]
      · rw [crlf_cons hd]
        rfl

theorem clear_of_head? {c : Char} (h : cs.head? = some c) (hc : isBreak c = false) : Clear 1 cs := by
  obtain ⟨rest, rfl⟩ := List.head?_eq_some_iff.1 h
  exact ⟨Nat.succ_pos _, List.forall_mem_singleton.2 hc⟩

-- The quote in front of the label of a heredoc.
def labelQuote (header : List Char) : Option Char :=
  header.head?.filter fun c => c = '\'' || c = '"'

theorem labelQuote_eq_some {header : List Char} {q : Char} (h : labelQuote header = some q) :
    header.head? = some q ∧ isBreak q = false := by
  obtain ⟨hhead, hq⟩ := Option.filter_eq_some_iff.1 h
  refine ⟨hhead, ?_⟩
  simp only [Bool.or_eq_true, decide_eq_true_eq] at hq
  rcases hq with rfl | rfl <;> rfl

theorem labelQuote_crlf (header : List Char) : labelQuote (crlf header) = labelQuote header := by
  cases header with
  | nil => rfl
  | cons c header =>
      rcases eq_or_ne c '\n' with rfl | hc
      · rfl
      · rw [crlf_cons hc]
        rfl

theorem heredocHeader_crlf (cs : List Char) : heredocHeader (crlf cs) = heredocHeader cs := by
  have hindent : Unbroken isIndent := by decide
  have hname : Unbroken isNamePart := by decide
  unfold heredocHeader
  rw [hindent.run_crlf]
  dsimp only
  rw [(clear_run hindent cs).drop_crlf]
  generalize cs.drop (run isIndent cs) = header
  have hquote := labelQuote_crlf header
  unfold labelQuote at hquote
  rw [hquote]
  cases hq : header.head?.filter fun c => c = '\'' || c = '"' with
  | none => simp only [Option.isSome_none, Bool.false_eq_true, if_false, List.drop_zero, hname.takeWhile_crlf]
  | some q =>
      obtain ⟨hhead, hbreak⟩ := labelQuote_eq_some hq
      have hclear := clear_of_head? hhead hbreak
      have hlabel := hclear.add (clear_run hname (header.drop 1))
      simp only [Option.isSome_some, if_true, hclear.drop_crlf, hname.takeWhile_crlf]
      rw [show (List.takeWhile isNamePart (header.drop 1)).length = run isNamePart (header.drop 1) from rfl,
        hlabel.drop_crlf]
      simp only [head?_crlf_iff hbreak]

theorem clear_of_heredocHeader {label : List Char} {n : Nat}
    (h : heredocHeader cs = some (label, n)) : Clear n cs := by
  have hindent := clear_run (p := isIndent) (by decide) cs
  have hname : Unbroken isNamePart := by decide
  unfold heredocHeader at h
  dsimp only at h
  generalize run isIndent cs = indent at h hindent
  cases hq : labelQuote (cs.drop indent) with
  | none =>
      unfold labelQuote at hq
      simp only [hq, Option.isSome_none, Bool.false_eq_true, if_false, List.drop_zero] at h
      split at h
      · cases h
        exact hindent.add (clear_run hname _)
      · cases h
  | some q =>
      obtain ⟨hhead, hbreak⟩ := labelQuote_eq_some hq
      unfold labelQuote at hq
      simp only [hq, Option.isSome_some, if_true] at h
      split at h
      · split at h
        · rename_i hclose
          cases h
          have hlabel := (clear_of_head? hhead hbreak).add (clear_run hname _)
          have hquoted := hindent.add (hlabel.add (clear_of_head? hclose hbreak))
          rwa [show indent + (1 + run isNamePart ((cs.drop indent).drop 1) + 1) =
            indent + (((cs.drop indent).drop 1).takeWhile isNamePart).length + 2 by
              rw [run]; omega] at hquoted
        · cases h
      · cases h

-- The line that closes a heredoc is the same line behind either kind of break.
theorem closesHeredoc_break {label : List Char} (hlabel : label.all isNamePart = true)
    (cs : List Char) : closesHeredoc label ('\n' :: crlf cs) = closesHeredoc label ('\n' :: cs) := by
  have hindent : Unbroken isIndent := by decide
  have hname : Unbroken isNamePart := by decide
  have hinline := hname.inline hlabel
  have hbegins (r : List Char) : startsWith "\n" ('\n' :: r) = true := by
    simp [startsWith, List.isPrefixOf]
  simp only [closesHeredoc, hbegins, Bool.true_and, List.tail_cons, hindent.run_crlf,
    Nat.add_comm 1, List.drop_succ_cons, (clear_run hindent cs).drop_crlf, hinline.isPrefixOf_crlf]
  generalize cs.drop (run isIndent cs) = line
  cases h : label.isPrefixOf line with
  | false => rfl
  | true =>
      have hclear := clear_of_prefix (List.isPrefixOf_iff_prefix.1 h) hinline
      rw [hclear.drop_crlf, headIs_crlf (hname.1.trans hname.2.symm)]

theorem closesHeredoc_other {label : List Char} {c : Char} (hc : c ≠ '\n') (cs : List Char) :
    closesHeredoc label (c :: cs) = false := by
  have hstarts : startsWith "\n" (c :: cs) = false := by
    simp [startsWith, List.isPrefixOf, Ne.symm hc]
  rw [closesHeredoc, hstarts, Bool.false_and]

theorem stretch_one_of_closesHeredoc {label : List Char} (h : closesHeredoc label cs = true) :
    stretch 1 cs = 2 := by
  cases cs with
  | nil => cases h
  | cons c cs =>
      rcases eq_or_ne c '\n' with rfl | hc
      · rfl
      · rw [closesHeredoc_other hc] at h
        cases h

-- It is the line feed that begins the line, so the carriage return belongs to the line before.
theorem seek_closesHeredoc_crlf {label : List Char} (hlabel : label.all isNamePart = true)
    (cs : List Char) : seek (closesHeredoc label) (crlf cs) =
      (seek (closesHeredoc label) cs).map (stretch · cs + 1) := by
  induction cs with
  | nil => rfl
  | cons c cs ih =>
      rcases eq_or_ne c '\n' with rfl | hc
      · have hreturn (r : List Char) : closesHeredoc label ('\r' :: r) = false :=
          closesHeredoc_other (by decide) r
        have hhere := closesHeredoc_break hlabel cs
        rw [crlf_break]
        simp only [seek, hreturn, hhere]
        cases h : closesHeredoc label ('\n' :: cs) with
        | true => simp
        | false => simp [ih, Function.comp_def]
      · rw [crlf_cons hc]
        simp [seek, closesHeredoc_other hc, ih, Function.comp_def, stretch_cons hc]

theorem heredoc_crlf (h : startsWith "<<<" cs = true) :
    heredoc (crlf cs) = (heredoc cs).stretch cs := by
  have hopener : Clear 3 cs := clear_of_startsWith h (by decide)
  have hindent : Unbroken isIndent := by decide
  rw [heredoc, hopener.drop_crlf, heredocHeader_crlf, heredoc]
  cases hheader : heredocHeader (cs.drop 3) with
  | none => rfl
  | some r =>
      obtain ⟨label, header⟩ := r
      obtain ⟨-, hlabel⟩ := label_of_heredocHeader hheader
      have hclear := hopener.add (clear_of_heredocHeader hheader)
      dsimp only
      rw [hclear.drop_crlf, seek_closesHeredoc_crlf hlabel]
      cases hn : seek (closesHeredoc label) (cs.drop (3 + header)) with
      | none => rfl
      | some n =>
          have hcloses := seek_holds hn
          have hend := clear_of_closesHeredoc hcloses hlabel
          have hbody := stretch_add (3 + header)
            (n + 1 + (run isIndent ((cs.drop (3 + header)).drop (n + 1)) + label.length)) cs
          generalize cs.drop (3 + header) = body at hcloses hend hbody
          have hbreak : stretch (n + 1) body = stretch n body + 1 + 1 := by
            rw [stretch_add, stretch_one_of_closesHeredoc hcloses]
          rw [List.tail_drop] at hend
          rw [hclear.stretch_eq, stretch_add (n + 1), hend.stretch_eq] at hbody
          simp only [Option.map_some, Found.stretch, ← hbreak, drop_stretch, hindent.run_crlf]
          congr 1
          simp only [Nat.add_assoc] at hbody hbreak ⊢
          rw [hbody, hbreak]
          omega

theorem applies_crlf : ∀ r ∈ rules, ∀ cs, r.applies (crlf cs) = r.applies cs := by
  have behind (opener : String) (hopener : Inline opener.toList) (hlength : opener.toList.length = 1)
      {p : Char → Bool} (hp : p '\r' = p '\n') (cs : List Char) :
      (startsWith opener (crlf cs) && headIs p (crlf cs).tail) =
        (startsWith opener cs && headIs p cs.tail) := by
    rw [startsWith_crlf hopener]
    cases h : startsWith opener cs with
    | false => rfl
    | true =>
        have hclear : Clear 1 cs := hlength ▸ clear_of_startsWith h hopener
        rw [hclear.tail_crlf, headIs_crlf hp]
  simp only [rules, List.forall_mem_cons]
  refine ⟨headIs_crlf (by decide), headIs_crlf (by decide),
    behind "$" (by decide) rfl (by decide), behind "." (by decide) rfl (by decide),
    startsWith_crlf (by decide), startsWith_crlf (by decide), startsWith_crlf (by decide),
    startsWith_crlf (by decide), startsWith_crlf (by decide), startsWith_crlf (by decide),
    startsWith_crlf (by decide), startsWith_crlf (by decide), startsWith_crlf (by decide), by simp⟩

theorem scan_crlf : ∀ r ∈ rules, ∀ cs, r.applies cs = true →
    r.scan (crlf cs) = (r.scan cs).stretch cs := by
  have fixed (opener : String) (hopener : Inline opener.toList) (k : TokenKind) (cs : List Char)
      (h : startsWith opener cs = true) : Found.token k opener.toList.length =
        (Found.token k opener.toList.length).stretch cs := by
    rw [Found.stretch, (clear_of_startsWith h hopener).stretch_eq]
  simp only [rules, List.forall_mem_cons]
  refine ⟨fun cs _ => word_crlf cs, fun cs _ => number_crlf cs,
    fun _ h => variableName_crlf (Bool.and_eq_true_iff.1 h).1,
    fun _ h => fractionNumber_crlf (Bool.and_eq_true_iff.1 h).1,
    fun _ h => quotedString_crlf _ (by decide) (clear_of_startsWith h (by decide)),
    fun _ h => quotedString_crlf _ (by decide) (clear_of_startsWith h (by decide)),
    fun _ h => lineComment_crlf (by decide) h, fun _ h => lineComment_crlf (by decide) h,
    fixed "/**/" (by decide) _, fun _ h => blockComment_crlf (by decide) h,
    fun _ h => blockComment_crlf (by decide) h, fun _ h => heredoc_crlf h,
    fixed "?>" (by decide) _, by simp⟩

-- The same token is found with carriage returns, and it reaches as far.
theorem code_crlf (cs : List Char) : code (crlf cs) = (code cs).stretch cs := by
  have hfind : (rules.find? fun r => r.applies (crlf cs)) = rules.find? fun r => r.applies cs :=
    List.find?_congr fun r hr => applies_crlf r hr cs
  rw [code, hfind, code]
  cases h : rules.find? fun r => r.applies cs with
  | none => exact mark_crlf cs
  | some r =>
      have happlies : r.applies cs = true := List.find?_some (p := fun r : Rule => r.applies cs) h
      exact scan_crlf r (List.mem_of_find?_eq_some h) cs happlies

theorem markupLength_crlf (cs : List Char) :
    markupLength (crlf cs) = stretch (markupLength cs) cs := by
  have htag : Inline "<?php".toList := by decide
  have hopens (cs : List Char) : opensCode (crlf cs) = opensCode cs :=
    decide_eq_decide.2 (lowered_crlf htag cs)
  refine seek_getD_crlf hopens (fun cs h => absurd (of_decide_eq_true h) ?_) cs
  simp

end Scan

end Census
