import Census.Proofs.Text.Split
import Census.Proofs.Token.LongestMatch
import Census.Proofs.Token.Separation

namespace Census

open Text Scan Pattern

variable {source : String} {cs before more rest indent quote label body line tail : List Char}
  {passed later : List Token} {ending : Option LexError}

namespace Scan

-- A line that ends a heredoc has the label behind indentation, and goes on with no part of a name.
structure EndsBy (label margin after line : List Char) : Prop where
  split : line = margin ++ (label ++ after)
  indented : margin.all isIndent = true
  ends : headIs isNamePart after = false

def ClosingLine (label line : List Char) : Prop := ∃ margin after, EndsBy label margin after line

theorem closingLine_iff (hlabel : label ∈ name) :
    ClosingLine label line ↔ closesHeredoc label ('\n' :: line) = true := by
  rw [closesHeredoc_iff hlabel]
  constructor
  · rintro ⟨margin, after, rfl, hmargin, hends⟩
    exact ⟨margin, after, rfl, hmargin, hends⟩
  · rintro ⟨margin, after, hline, hmargin, hends⟩
    exact ⟨margin, after, (List.cons.inj hline).2, hmargin, hends⟩

section Lines

variable {inner : List (List Char)}

-- Nothing but the end of the text or a line break follows a line.
def Broken (tail : List Char) : Prop := ∀ c ∈ tail.head?, c = '\n'

theorem broken_lines (inner : List (List Char)) (htail : Broken tail) :
    Broken (inner.flatMap ('\n' :: ·) ++ tail) := by
  cases inner with
  | nil => exact htail
  | cons line inner => rintro _ ⟨⟩; rfl

theorem headIs_append_broken (after : List Char) (htail : Broken tail) :
    headIs isNamePart (after ++ tail) = headIs isNamePart after := by
  cases after with
  | cons c after => rfl
  | nil =>
      cases tail with
      | nil => rfl
      | cons c tail =>
          obtain rfl := htail c rfl
          rfl

-- Whether a line ends a heredoc does not depend on the lines behind it.
theorem closingLine_append (hlabel : label ∈ name) (htail : Broken tail) :
    ClosingLine label (line ++ tail) ↔ ClosingLine label line := by
  constructor
  · rintro ⟨margin, after, hline, hmargin, hends⟩
    cases tail with
    | nil => exact ⟨margin, after, (List.append_nil line).symm.trans hline, hmargin, hends⟩
    | cons c tail =>
        obtain rfl := htail c rfl
        obtain ⟨behind, rfl, rfl⟩ := split_of_break (hline.trans (List.append_assoc ..).symm)
          (break_not_mem_label hmargin hlabel)
        rw [headIs_append_broken behind htail] at hends
        exact ⟨margin, behind, List.append_assoc _ _ _, hmargin, hends⟩
  · rintro ⟨margin, after, rfl, hmargin, hends⟩
    refine ⟨margin, after ++ tail, by simp only [List.append_assoc], hmargin, ?_⟩
    rw [headIs_append_broken after htail, hends]

-- The search for the closing line goes from line break to line break.
theorem seek_line (hline : '\n' ∉ line) : seek (closesHeredoc label) (line ++ tail) =
    (seek (closesHeredoc label) tail).map (line.length + ·) := by
  induction line with
  | nil => simp
  | cons c line ih =>
      rw [List.mem_cons, not_or] at hline
      have hc : closesHeredoc label (c :: (line ++ tail)) = false := closesHeredoc_other (Ne.symm hline.1) _
      rw [List.cons_append, seek, hc, ih hline.2]
      simp [Function.comp_def, Nat.add_right_comm]

-- It passes over the lines that do not close the heredoc.
theorem seek_lines (hlabel : label ∈ name) (hsingle : ∀ line ∈ inner, '\n' ∉ line)
    (hopen : ∀ line ∈ inner, ¬ClosingLine label line) (htail : Broken tail) :
    seek (closesHeredoc label) (inner.flatMap ('\n' :: ·) ++ tail) =
      (seek (closesHeredoc label) tail).map ((inner.flatMap ('\n' :: ·)).length + ·) := by
  induction inner with
  | nil => simp
  | cons line inner ih =>
      obtain ⟨hline, hothers⟩ := List.forall_mem_cons.1 hsingle
      obtain ⟨hnot, hrest⟩ := List.forall_mem_cons.1 hopen
      have hbroken := broken_lines inner htail
      have hpassed : closesHeredoc label ('\n' :: (line ++ (inner.flatMap ('\n' :: ·) ++ tail))) = false := by
        rw [← Bool.not_eq_true, ← closingLine_iff hlabel, closingLine_append hlabel hbroken]
        exact hnot
      rw [List.flatMap_cons, List.append_assoc, List.cons_append, seek, hpassed, seek_line hline,
        ih hothers hrest]
      simp only [Bool.false_eq_true, if_false, Option.map_map, Function.comp_def, List.cons_append,
        List.length_cons, List.length_append, Nat.add_assoc, Nat.add_comm 1]

end Lines

-- Without a header, nothing is read.
theorem heredoc_of_not_headed (h : ∀ indent quote label body, ¬Headed more indent quote label body) :
    heredoc ("<<<".toList ++ more) = .unexpected := by
  have hbare : heredocHeader (("<<<".toList ++ more).drop 3) = none := by
    refine Option.eq_none_iff_forall_ne_some.2 fun found hfound => ?_
    obtain ⟨indent, quote, body, hheaded, -⟩ := headed_of_heredocHeader hfound
    exact h indent quote found.1 body hheaded
  rw [heredoc, hbare]

theorem heredoc_of_not_closed (hheaded : Headed more indent quote label body)
    (hopen : ∀ line ∈ (splitAt '\n' body).tail, ¬ClosingLine label line) :
    heredoc ("<<<".toList ++ more) = .unterminated .heredocLabel := by
  obtain ⟨first, lines, hlines⟩ := List.exists_cons_of_ne_nil (splitAt_ne_nil '\n' body)
  have hsingle {line : List Char} (hline : line ∈ first :: lines) : '\n' ∉ line :=
    not_mem_of_mem_splitAt (hlines ▸ hline)
  have hseek : seek (closesHeredoc label) body = none := by
    rw [hlines] at hopen
    rw [eq_of_splitAt hlines, seek_line (hsingle List.mem_cons_self), ← List.append_nil (lines.flatMap _),
      seek_lines hheaded.named (fun line hline => hsingle (List.mem_cons_of_mem first hline)) hopen
        (fun _ h => by cases h)]
    rfl
  have hheader : heredocHeader (("<<<".toList ++ more).drop 3) = _ := hheaded.heredocHeader_eq
  rw [heredoc, hheader]
  simp only [hheaded.drop_eq, hseek]

-- The first line that closes a heredoc, with the lines in front of it.
structure FirstClosing (label body first : List Char) (inner : List (List Char)) (margin after : List Char) :
    Prop where
  lines : ∃ line others, splitAt '\n' body = first :: (inner ++ line :: others) ∧ EndsBy label margin after line
  passed : ∀ line ∈ inner, ¬ClosingLine label line

variable {first margin after : List Char} {inner : List (List Char)}

theorem exists_firstClosing (hlabel : label ∈ name)
    (h : ∃ line ∈ (splitAt '\n' body).tail, ClosingLine label line) :
    ∃ first inner margin after, FirstClosing label body first inner margin after := by
  obtain ⟨first, lines, hlines⟩ := List.exists_cons_of_ne_nil (splitAt_ne_nil '\n' body)
  simp only [hlines, List.tail_cons, closingLine_iff hlabel] at h
  obtain ⟨line, hline⟩ := Option.isSome_iff_exists.1 (List.find?_isSome.2 h)
  obtain ⟨hcloses, inner, others, rfl, hopen⟩ := List.find?_eq_some_iff_append.1 hline
  obtain ⟨margin, after, hends⟩ := (closingLine_iff hlabel).2 hcloses
  refine ⟨first, inner, margin, after, ⟨line, others, hlines, hends⟩, fun line hline hcloses => ?_⟩
  have hnot := hopen line hline
  rw [(closingLine_iff hlabel).1 hcloses] at hnot
  cases hnot

-- The text of a heredoc through its closing label.
def heredocText (indent quote label first : List Char) (inner : List (List Char)) (margin : List Char) :
    List Char :=
  "<<<".toList ++ (indent ++ (quote ++ (label ++ (quote ++ (first ++ (inner.flatMap ('\n' :: ·) ++
    '\n' :: (margin ++ label)))))))

theorem heredoc_of_firstClosing (hheaded : Headed more indent quote label body)
    (h : FirstClosing label body first inner margin after) :
    heredocText indent quote label first inner margin <+: "<<<".toList ++ more ∧
      heredoc ("<<<".toList ++ more) =
        .token .string (heredocText indent quote label first inner margin).length := by
  obtain ⟨⟨_, others, hlines, rfl, hmargin, hends⟩, hopen⟩ := h
  have hsingle {line : List Char} (hline : line ∈ first :: (inner ++ (margin ++ (label ++ after)) :: others)) :
      '\n' ∉ line := not_mem_of_mem_splitAt (hlines ▸ hline)
  let front := first ++ inner.flatMap ('\n' :: ·)
  let behind := after ++ others.flatMap ('\n' :: ·)
  have hbody : body = front ++ '\n' :: (margin ++ (label ++ behind)) := by
    rw [eq_of_splitAt hlines]
    simp only [front, behind, List.flatMap_append, List.flatMap_cons, List.append_assoc, List.cons_append]
  have hbehind : headIs isNamePart behind = false := by
    have hbroken : Broken (others.flatMap ('\n' :: ·) ++ []) := broken_lines others fun _ h => by cases h
    rw [List.append_nil] at hbroken
    rw [headIs_append_broken after hbroken, hends]
  have hcloses : closesHeredoc label ('\n' :: (margin ++ (label ++ behind))) = true :=
    (closingLine_iff hheaded.named).1 ⟨margin, behind, rfl, hmargin, hbehind⟩
  have hseek : seek (closesHeredoc label) body = some front.length := by
    rw [hbody, List.append_assoc, seek_line (hsingle List.mem_cons_self), seek_lines hheaded.named
      (fun line hline => hsingle (List.mem_cons_of_mem first (List.mem_append_left _ hline))) hopen
      (fun _ h => by cases h; rfl), seek, if_pos hcloses]
    simp only [Option.map_some, Nat.add_zero, front, List.length_append]
  have hclosed : Closed more indent quote label front margin behind :=
    ⟨hbody ▸ hheaded, hmargin, hbehind, hbody ▸ (seek_eq_some.1 hseek).2.2⟩
  have hmore : "<<<".toList ++ more = heredocText indent quote label first inner margin ++ behind := by
    rw [hheaded.split, hbody]
    simp only [heredocText, front, List.append_assoc, List.cons_append]
  have hlength := congrArg List.length hmore
  rw [List.length_append, List.length_append] at hlength
  change 3 + more.length = _ at hlength
  refine ⟨⟨behind, hmore.symm⟩, hclosed.heredoc_eq.trans ?_⟩
  congr 1
  have hle := hclosed.suffix.length_le
  omega

end Scan

-- What becomes of a heredoc whose opener stands behind `before`, with `more` behind the opener.
structure HeredocRead (cs before more : List Char) (later : List Token) (ending : Option LexError) : Prop where
  -- A label that is missing or has no closing quote is refused.
  headless : (∀ indent quote label body, ¬Headed more indent quote label body) → later = [] ∧
    ending = some (.unexpectedCharacter (.ofIndex cs before.length) '<')
  -- Behind a header, the lines decide: the first one that has the label in front ends the token.
  closed : ∀ indent quote label body, Headed more indent quote label body →
    (∃ line ∈ (splitAt '\n' body).tail, ClosingLine label line) →
      ∃ first inner margin after, FirstClosing label body first inner margin after ∧
        ∃ t others, later = t :: others ∧ t.kind = .string ∧ t.StandsBehind cs before ∧
          t.text.toList = heredocText indent quote label first inner margin
  unclosed : ∀ indent quote label body, Headed more indent quote label body →
    (∀ line ∈ (splitAt '\n' body).tail, ¬ClosingLine label line) → later = [] ∧
      ending = some (.unterminated (.ofIndex cs before.length) .heredocLabel)

theorem heredocRead_of_reported
    (h : (code ("<<<".toList ++ more)).Reported cs before ("<<<".toList ++ more) later ending) :
    HeredocRead cs before more later ending := by
  have hcode : code ("<<<".toList ++ more) = heredoc ("<<<".toList ++ more) := rfl
  rw [hcode] at h
  refine ⟨fun hnot => ?_, fun indent quote label body hheaded hcloses => ?_,
    fun indent quote label body hheaded hopen => ?_⟩
  · rw [heredoc_of_not_headed hnot] at h
    obtain ⟨hlater, c, hc, hending⟩ := h
    cases hc
    exact ⟨hlater, hending⟩
  · obtain ⟨first, inner, margin, after, hfirst⟩ := exists_firstClosing hheaded.named hcloses
    obtain ⟨htext, hfound⟩ := heredoc_of_firstClosing hheaded hfirst
    rw [hfound] at h
    obtain ⟨t, others, hlater, hkind, ht, hstands⟩ := h
    exact ⟨first, inner, margin, after, hfirst, t, others, hlater, hkind, hstands,
      ht.trans (List.prefix_iff_eq_take.1 htext).symm⟩
  · rw [heredoc_of_not_closed hheaded hopen] at h
    exact h

-- Wherever a token of code may begin with the opener of a heredoc, the heredoc ends at the first
-- line that begins with its label, whatever stands in front of that line.
theorem tokenize_heredoc (h : (tokenize source).1 = passed ++ later)
    (hcode : Mode.markup.behindAll passed = .code) : ∃ read gap rest,
      source.toList = read ++ (gap ++ rest) ∧
      (passed.getLast?.elim (read = []) fun t => t.stop = Token.offset (utf8Size read)) ∧
      gap.all Scan.isSpace = true ∧ headIs Scan.isSpace rest = false ∧
      ∀ more, rest = "<<<".toList ++ more →
        HeredocRead source.toList (read ++ gap) more later (tokenize source).2 := by
  obtain ⟨lexer, read, hat, hmode, htokens, hstop⟩ := tokenize_append h
  obtain ⟨gap, rest, hrest, hspace, hvisible, -, hreported⟩ := lexer.reported hat (hmode.trans hcode)
  rw [htokens] at hreported
  refine ⟨read, gap, rest, by rw [hat.split, hrest], hstop, hspace, hvisible, ?_⟩
  rintro more rfl
  exact heredocRead_of_reported (hreported nofun)

-- Neither the tag and the quotes in the first line nor the longer name in the second one end it.
theorem tokenize_heredoc_quoted :
    let source := "<?php <<<\"EOT\"\né ?> 'x /*\nEOTX\n \tEOT;"
    Mode.markup.behindAll ((tokenize source).1.take 1) = .code ∧ (∃ read gap rest,
      source.toList = read ++ (gap ++ rest) ∧ gap.all Scan.isSpace = true ∧
      headIs Scan.isSpace rest = false ∧ ∀ more, rest = "<<<".toList ++ more →
        HeredocRead source.toList (read ++ gap) more ((tokenize source).1.drop 1) (tokenize source).2) ∧
    ((tokenize source).1.drop 1).map (·.text) = ["<<<\"EOT\"\né ?> 'x /*\nEOTX\n \tEOT", ";"] := by
  intro source
  have hcode : Mode.markup.behindAll ((tokenize source).1.take 1) = .code := by decide +kernel
  obtain ⟨read, gap, rest, hsplit, -, hspace, hvisible, hread⟩ :=
    tokenize_heredoc (List.take_append_drop 1 _).symm hcode
  exact ⟨hcode, ⟨read, gap, rest, hsplit, hspace, hvisible, hread⟩, by decide +kernel⟩

end Census
