import Census.Proofs.Token.LineEnd
import Census.Proofs.Token.Pattern

namespace Census

open Text Pattern

namespace Scan

variable {cs label rest : List Char} {n : Nat}

-- The quote around the label of a heredoc, if there is one.
def IsLabelQuote (quote : List Char) : Prop :=
  quote = [] ∨ ∃ q, (q = '\'' || q = '"') = true ∧ quote = [q]

-- The header of a heredoc has its label behind indentation, bare or between two equal quotes. A
-- bare label reaches as far as it can.
structure Headed (cs indent quote label rest : List Char) : Prop where
  split : cs = indent ++ (quote ++ (label ++ (quote ++ rest)))
  indented : indent.all isIndent = true
  quoted : IsLabelQuote quote
  named : label ∈ name
  ends : headIs isNamePart (quote ++ rest) = false

theorem headIs_dropWhile {p : Char → Bool} (cs : List Char) : headIs p (cs.dropWhile p) = false := by
  have hnot := List.head?_dropWhile_not p cs
  cases hdrop : cs.dropWhile p with
  | nil => rfl
  | cons c rest => simpa [headIs, hdrop] using hnot

-- A name begins with neither indentation nor a quote.
theorem bare_of_name (hlabel : label ∈ name) (after : List Char) :
    headIs isIndent (label ++ after) = false := by
  obtain ⟨c, word, rfl, hc, -⟩ := mem_one_mul_many.1 hlabel
  refine Bool.eq_false_iff.2 fun hindent => ?_
  have hc' : c = ' ' ∨ c = '\t' := by simpa [headIs, isIndent] using hindent
  rcases hc' with rfl | rfl <;> cases hc

theorem labelQuote_of_name (hlabel : label ∈ name) (after : List Char) :
    labelQuote (label ++ after) = none := by
  obtain ⟨c, word, rfl, hc, -⟩ := mem_one_mul_many.1 hlabel
  refine Option.filter_eq_none_iff.2 fun d hd => ?_
  obtain rfl := Option.some.inj hd
  intro hquote
  have hc' : c = '\'' ∨ c = '"' := by simpa using hquote
  rcases hc' with rfl | rfl <;> cases hc

section Header

variable {indent header text : List Char} {q : Char}

-- The header of a bare label, behind indentation.
theorem heredocHeader_bare (hindent : indent.all isIndent = true) (hbare : headIs isIndent header = false)
    (hquote : labelQuote header = none) : heredocHeader (indent ++ header) =
      if headIs isNameStart (header.takeWhile isNamePart) = true then
        some (header.takeWhile isNamePart, indent.length + (header.takeWhile isNamePart).length)
      else none := by
  unfold labelQuote at hquote
  rw [heredocHeader]
  simp only [run_append hindent hbare, List.drop_left, hquote, Option.isSome_none, Bool.false_eq_true,
    if_false, List.drop_zero]

-- The header of a label between quotes.
theorem heredocHeader_quoted (hindent : indent.all isIndent = true) (hq : (q = '\'' || q = '"') = true) :
    heredocHeader (indent ++ q :: text) =
      if headIs isNameStart (text.takeWhile isNamePart) = true then
        if (text.drop (text.takeWhile isNamePart).length).head? = some q then
          some (text.takeWhile isNamePart, indent.length + (text.takeWhile isNamePart).length + 2)
        else none
      else none := by
  have hbare : headIs isIndent (q :: text) = false := by
    have hq : q = '\'' ∨ q = '"' := by simpa using hq
    rcases hq with rfl | rfl <;> rfl
  have hfirst : (q :: text).head?.filter (fun c => c = '\'' || c = '"') = some q := by
    simp [Option.filter, hq]
  rw [heredocHeader]
  simp only [run_append hindent hbare, List.drop_left, hfirst, Option.isSome_some, if_true, Nat.add_comm 1,
    List.drop_succ_cons, List.drop_zero]

end Header

theorem Headed.heredocHeader_eq {indent quote : List Char} (h : Headed cs indent quote label rest) :
    heredocHeader cs =
      some (label, indent.length + (quote.length + (label.length + quote.length))) := by
  obtain ⟨rfl, hindent, hquote, hlabel, hends⟩ := h
  obtain ⟨hstart, hparts⟩ := mem_name.1 hlabel
  have htake := takeWhile_append hparts hends
  rcases hquote with rfl | ⟨q, hq, rfl⟩
  · rw [List.nil_append, heredocHeader_bare hindent (bare_of_name hlabel _) (labelQuote_of_name hlabel _),
      htake, if_pos hstart, List.length_nil, Nat.add_zero, Nat.zero_add]
  · rw [List.singleton_append, heredocHeader_quoted hindent hq, htake, if_pos hstart, List.drop_left,
      List.singleton_append, List.head?_cons, if_pos rfl]
    simp only [List.length_cons, List.length_nil, Option.some.injEq, Prod.mk.injEq, true_and]
    omega

theorem headed_of_heredocHeader (h : heredocHeader cs = some (label, n)) :
    ∃ indent quote rest, Headed cs indent quote label rest ∧
      n = indent.length + (quote.length + (label.length + quote.length)) := by
  have hindent : (cs.takeWhile isIndent).all isIndent = true := List.all_takeWhile
  have hcs : cs = cs.takeWhile isIndent ++ cs.dropWhile isIndent := List.takeWhile_append_dropWhile.symm
  have hbare := headIs_dropWhile (p := isIndent) cs
  have named (text : List Char) (hstart : headIs isNameStart (text.takeWhile isNamePart) = true) :
      text.takeWhile isNamePart ∈ name := mem_name.2 ⟨hstart, List.all_takeWhile⟩
  rw [hcs] at h
  generalize cs.takeWhile isIndent = indent, cs.dropWhile isIndent = header at h hindent hcs hbare
  cases hquote : labelQuote header with
  | none =>
      rw [heredocHeader_bare hindent hbare hquote] at h
      split at h
      · rename_i hstart
        cases h
        refine ⟨indent, [], header.dropWhile isNamePart,
          ⟨?_, hindent, .inl rfl, named _ hstart, headIs_dropWhile _⟩, ?_⟩
        · rw [List.nil_append, List.nil_append, List.takeWhile_append_dropWhile]
          exact hcs
        · rw [List.length_nil, Nat.zero_add, Nat.add_zero]
      · cases h
  | some q =>
      obtain ⟨text, rfl⟩ := List.head?_eq_some_iff.1 (labelQuote_eq_some hquote).1
      have hq := (Option.filter_eq_some_iff.1 hquote).2
      rw [heredocHeader_quoted hindent hq] at h
      split at h
      · rename_i hstart
        split at h
        · rename_i hclose
          cases h
          obtain ⟨rest, hrest⟩ := List.head?_eq_some_iff.1 hclose
          have htext : text = text.takeWhile isNamePart ++ q :: rest := by
            rw [← hrest]
            exact (List.prefix_iff_eq_append.1 (List.takeWhile_prefix _)).symm
          refine ⟨indent, [q], rest, ⟨?_, hindent, .inr ⟨q, hq, rfl⟩, named _ hstart, ?_⟩, ?_⟩
          · rw [List.singleton_append, List.singleton_append, ← htext]
            exact hcs
          · have hq : q = '\'' ∨ q = '"' := by simpa using hq
            rcases hq with rfl | rfl <;> rfl
          · simp only [List.length_cons, List.length_nil]
            omega
        · cases h
      · cases h

-- What the header of a heredoc is written as.
theorem mem_header {text : List Char} : text ∈ header ↔ ∃ indent quote label,
    indent.all isIndent = true ∧ IsLabelQuote quote ∧ label ∈ name ∧
      text = indent ++ (quote ++ (label ++ quote)) := by
  constructor
  · rintro ⟨indent, hindent, _, (hname | ⟨_, rfl, _, ⟨label, hlabel, _, rfl, rfl⟩, rfl⟩) |
      ⟨_, rfl, _, ⟨label, hlabel, _, rfl, rfl⟩, rfl⟩, rfl⟩
    · exact ⟨indent, [], _, mem_many.1 hindent, .inl rfl, hname, by simp⟩
    · exact ⟨indent, ['\''], label, mem_many.1 hindent, .inr ⟨_, rfl, rfl⟩, hlabel, rfl⟩
    · exact ⟨indent, ['"'], label, mem_many.1 hindent, .inr ⟨_, rfl, rfl⟩, hlabel, rfl⟩
  · rintro ⟨indent, quote, label, hindent, hquote, hlabel, rfl⟩
    refine ⟨indent, mem_many.2 hindent, _, ?_, rfl⟩
    rcases hquote with rfl | ⟨q, hq, rfl⟩
    · rw [List.nil_append, List.append_nil]
      exact .inl (.inl hlabel)
    · have hq : q = '\'' ∨ q = '"' := by simpa using hq
      rcases hq with rfl | rfl
      · exact .inl (.inr ⟨_, rfl, _, ⟨label, hlabel, _, rfl, rfl⟩, rfl⟩)
      · exact .inr ⟨_, rfl, _, ⟨label, hlabel, _, rfl, rfl⟩, rfl⟩

-- A text that begins with a header has one, with all of the name that a bare label begins.
theorem headed_of_prefix {indent quote : List Char} (hindent : indent.all isIndent = true)
    (hquote : IsLabelQuote quote) (hlabel : label ∈ name) (rest : List Char) :
    ∃ whole after, Headed (indent ++ (quote ++ (label ++ (quote ++ rest)))) indent quote whole after := by
  rcases hquote with rfl | ⟨q, hq, rfl⟩
  · obtain ⟨c, ds, rfl, hc, hds⟩ := mem_one_mul_many.1 hlabel
    have hall : (rest.takeWhile isNamePart).all isNamePart = true := List.all_takeWhile
    refine ⟨c :: (ds ++ rest.takeWhile isNamePart), rest.dropWhile isNamePart,
      ⟨by simp, hindent, .inl rfl, ?_, headIs_dropWhile _⟩⟩
    exact mem_one_mul_many.2 ⟨c, _, rfl, hc, by rw [List.all_append, hds, hall, Bool.true_and]⟩
  · refine ⟨label, rest, ⟨rfl, hindent, .inr ⟨q, hq, rfl⟩, hlabel, ?_⟩⟩
    have hq : q = '\'' ∨ q = '"' := by simpa using hq
    rcases hq with rfl | rfl <;> rfl

-- A heredoc has a header if one fits the text behind its opener.
theorem heredocHeader_eq_none :
    heredocHeader cs = none ↔ ∀ text ∈ header, ¬text <+: cs := by
  constructor
  · rintro hnone text htext ⟨rest, rfl⟩
    obtain ⟨indent, quote, label, hindent, hquote, hlabel, rfl⟩ := mem_header.1 htext
    obtain ⟨whole, after, hheaded⟩ := headed_of_prefix hindent hquote hlabel rest
    simp only [List.append_assoc] at hnone
    rw [hheaded.heredocHeader_eq] at hnone
    cases hnone
  · intro hnot
    cases h : heredocHeader cs with
    | none => rfl
    | some found =>
        obtain ⟨label, n⟩ := found
        obtain ⟨indent, quote, rest, ⟨rfl, hindent, hquote, hlabel, -⟩, -⟩ := headed_of_heredocHeader h
        refine absurd ?_ (hnot _ (mem_header.2 ⟨indent, quote, label, hindent, hquote, hlabel, rfl⟩))
        exact ⟨rest, by simp⟩

-- The line that closes a heredoc begins with the label behind indentation.
theorem closesHeredoc_iff (hlabel : label ∈ name) : closesHeredoc label cs = true ↔
    ∃ margin after, cs = '\n' :: (margin ++ (label ++ after)) ∧ margin.all isIndent = true ∧
      headIs isNamePart after = false := by
  rw [closesHeredoc, Bool.and_eq_true]
  constructor
  · rintro ⟨hbreak, hline⟩
    obtain ⟨line, rfl⟩ := List.isPrefixOf_iff_prefix.1 hbreak
    have hdrop : (("\n".toList ++ line).drop (1 + run isIndent ("\n".toList ++ line).tail)) =
        line.dropWhile isIndent := by
      rw [← drop_run, Nat.add_comm]
      rfl
    rw [hdrop] at hline
    obtain ⟨hfront, hafter⟩ := Bool.and_eq_true_iff.1 hline
    obtain ⟨after, hsplit⟩ := List.isPrefixOf_iff_prefix.1 hfront
    rw [← hsplit, List.drop_left, Bool.not_eq_true'] at hafter
    refine ⟨line.takeWhile isIndent, after, ?_, List.all_takeWhile, hafter⟩
    rw [hsplit, List.takeWhile_append_dropWhile]
    rfl
  · rintro ⟨margin, after, rfl, hmargin, hafter⟩
    have hbare := bare_of_name hlabel after
    refine ⟨rfl, ?_⟩
    have hdrop : ('\n' :: (margin ++ (label ++ after))).drop (1 + margin.length) = label ++ after := by
      rw [Nat.add_comm, List.drop_succ_cons, List.drop_left]
    simp only [List.tail_cons, run_append hmargin hbare, hdrop, List.drop_left, hafter,
      List.isPrefixOf_iff_prefix.2 (List.prefix_append label after), Bool.not_false, Bool.and_self]

-- The text of a heredoc behind its opener: the header, and the lines up to the first one that
-- closes it, with `front` in front of the break of that line.
structure Closed (cs indent quote label front margin after : List Char) : Prop where
  headed : Headed cs indent quote label (front ++ '\n' :: (margin ++ (label ++ after)))
  indented : margin.all isIndent = true
  ends : headIs isNamePart after = false
  first : ∀ m < front.length,
    closesHeredoc label ((front ++ '\n' :: (margin ++ (label ++ after))).drop m) = false

variable {indent quote front margin after : List Char}

-- What stands behind the header.
theorem Headed.drop_eq (h : Headed cs indent quote label rest) :
    ("<<<".toList ++ cs).drop (3 + (indent.length + (quote.length + (label.length + quote.length)))) =
      rest := by
  have hsplit : cs = indent ++ (quote ++ (label ++ quote)) ++ rest := by
    rw [h.split]
    simp only [List.append_assoc]
  rw [← List.drop_drop]
  change cs.drop _ = rest
  rw [hsplit]
  exact List.drop_left' (by simp only [List.length_append])

theorem Closed.heredoc_eq (h : Closed cs indent quote label front margin after) :
    heredoc ("<<<".toList ++ cs) = .token .string (3 + (cs.length - after.length)) := by
  obtain ⟨hheaded, hmargin, hends, hfirst⟩ := h
  have hheader : heredocHeader (("<<<".toList ++ cs).drop 3) = _ := hheaded.heredocHeader_eq
  have hbody : ("<<<".toList ++ cs).drop (3 + (indent.length + (quote.length + (label.length + quote.length)))) =
      front ++ '\n' :: (margin ++ (label ++ after)) := hheaded.drop_eq
  have hseek : seek (closesHeredoc label) (front ++ '\n' :: (margin ++ (label ++ after))) =
      some front.length := by
    refine seek_eq_some.2 ⟨by simp, ?_, hfirst⟩
    rw [List.drop_left]
    exact (closesHeredoc_iff hheaded.named).2 ⟨margin, after, rfl, hmargin, hends⟩
  have hindent : run isIndent ((front ++ '\n' :: (margin ++ (label ++ after))).drop (front.length + 1)) =
      margin.length := by
    rw [← List.drop_drop, List.drop_left]
    exact run_append hmargin (bare_of_name hheaded.named after)
  rw [heredoc, hheader]
  simp only [hbody, hseek, hindent]
  have hlength := congrArg List.length hheaded.split
  simp only [List.length_append, List.length_cons] at hlength
  congr 1
  omega

theorem Closed.suffix (h : Closed cs indent quote label front margin after) : after <:+ cs := by
  refine ⟨indent ++ (quote ++ (label ++ (quote ++ (front ++ '\n' :: (margin ++ label))))), ?_⟩
  rw [h.headed.split]
  simp only [List.append_assoc, List.cons_append]

theorem closed_of_heredoc {kind : TokenKind} (h : heredoc ("<<<".toList ++ cs) = .token kind n) :
    ∃ indent quote label front margin after, Closed cs indent quote label front margin after ∧
      kind = .string ∧ n = 3 + (cs.length - after.length) := by
  have hstart : ("<<<".toList ++ cs).drop 3 = cs := rfl
  have hfound := h
  rw [heredoc, hstart] at hfound
  cases hheader : heredocHeader cs with
  | none =>
      rw [hheader] at hfound
      cases hfound
  | some header =>
      obtain ⟨label, length⟩ := header
      obtain ⟨indent, quote, rest, hheaded, rfl⟩ := headed_of_heredocHeader hheader
      simp only [hheader, hheaded.drop_eq] at hfound
      cases hseek : seek (closesHeredoc label) rest with
      | none =>
          rw [hseek] at hfound
          cases hfound
      | some m =>
          obtain ⟨hm, hcloses, hfirst⟩ := seek_eq_some.1 hseek
          obtain ⟨margin, after, hline, hmargin, hends⟩ := (closesHeredoc_iff hheaded.named).1 hcloses
          have hrest : rest = rest.take m ++ '\n' :: (margin ++ (label ++ after)) := by
            rw [← hline, List.take_append_drop]
          have hfront : (rest.take m).length = m := by
            rw [List.length_take]
            omega
          rw [hrest] at hheaded hfirst
          have hclosed : Closed cs indent quote label (rest.take m) margin after :=
            ⟨hheaded, hmargin, hends, by rwa [hfront]⟩
          cases hclosed.heredoc_eq.symm.trans h
          exact ⟨indent, quote, label, rest.take m, margin, after, hclosed, rfl, rfl⟩

variable {text more : List Char}

-- A heredoc that makes up the text in front of `more`.
theorem closed_of_heredoc_append {kind : TokenKind}
    (h : heredoc ("<<<".toList ++ (text ++ more)) = .token kind (3 + text.length)) :
    ∃ indent quote label front margin, Closed (text ++ more) indent quote label front margin more ∧
      kind = .string := by
  obtain ⟨indent, quote, label, front, margin, after, hclosed, hkind, hn⟩ := closed_of_heredoc h
  obtain ⟨before, hbefore⟩ := hclosed.suffix
  have hlength := congrArg List.length hbefore
  simp only [List.length_append] at hlength hn
  obtain ⟨-, rfl⟩ := List.append_inj' hbefore (by omega)
  exact ⟨indent, quote, label, front, margin, hclosed, hkind⟩

theorem Closed.text_eq (h : Closed (text ++ more) indent quote label front margin more) :
    text = indent ++ (quote ++ (label ++ (quote ++ (front ++ '\n' :: (margin ++ label))))) := by
  refine List.append_cancel_right (h.headed.split.trans ?_)
  simp only [List.append_assoc, List.cons_append]

end Scan

end Census
