import Census.Proofs.Text.Split
import Census.Proofs.Skeleton.Basic
import Census.Proofs.Token.Spelling
import Census.Registry.DocComment
import Mathlib.Data.List.TakeWhile

namespace Census

namespace Scan

variable {c : Char}

theorem isBlank_of_isIndent (h : isIndent c = true) : Text.isBlank c = true := by
  simp only [isIndent, Bool.or_eq_true, decide_eq_true_eq] at h
  rcases h with rfl | rfl <;> decide

end Scan

namespace QualifiedName

open Skeleton

-- The text of a name is what its tokens say.
theorem join_texts (name : QualifiedName) :
    String.join ((nameAtoms name).map Atom.text) = name.text := by
  obtain ⟨head, tail⟩ := name
  have hjoin (head : Identifier) (tail : List Identifier) :
      head.text ++ String.join ((tail.flatMap fun word =>
        [.mark .backslash, .identifier word]).map Atom.text) =
          "\\".intercalate ((head :: tail).map Identifier.text) := by
    induction tail generalizing head with
    | nil => simp
    | cons word tail ih =>
        have hword := ih word
        simp only [List.map_cons, String.intercalate_cons_cons] at hword ⊢
        rw [← hword]
        simp [Atom.text, Mark.symbol, Symbol.text, String.append_assoc]
  simpa [nameAtoms, Atom.text, text] using hjoin head tail

variable (name : QualifiedName)

theorem chars : ∀ c ∈ name.text.toList, Scan.isNamePart c = true ∨ c = '\\' := by
  intro c hc
  have hword (word : Identifier) (hc : c ∈ word.text.toList) : Scan.isNamePart c = true :=
    List.all_eq_true.1 word.parts c hc
  rw [← name.join_texts, String.toList_join, nameAtoms, List.map_cons, List.flatMap_cons,
    List.mem_append] at hc
  rcases hc with hc | hc
  · exact .inl (hword name.head hc)
  · simp only [List.mem_flatMap, List.mem_map] at hc
    obtain ⟨_, ⟨atom, ⟨word, -, hatom⟩, rfl⟩, hc⟩ := hc
    rw [List.mem_cons, List.mem_singleton] at hatom
    rcases hatom with rfl | rfl
    · exact .inr (List.mem_singleton.1 hc)
    · exact .inl (hword word hc)

theorem begins : ∃ c cs, name.text.toList = c :: cs ∧ Scan.isNameStart c = true := by
  have hstart := name.head.start
  rw [← name.join_texts, nameAtoms, List.map_cons, String.join_cons, String.toList_append]
  cases hhead : name.head.text.toList with
  | nil => simp [hhead, Scan.headIs] at hstart
  | cons c cs =>
      refine ⟨c, cs ++ _, by rw [Atom.text, hhead, List.cons_append], ?_⟩
      simpa [hhead, Scan.headIs] using hstart

-- A character that is neither a part of a word nor a separator is not in a name.
theorem not_mem {c : Char} (h : Scan.isNamePart c = false) (hc : c ≠ '\\') : c ∉ name.text.toList := by
  intro hmem
  rcases name.chars c hmem with hpart | hback
  · rw [hpart] at h
    cases h
  · exact hc hback

-- No separator leads a name.
theorem bare_text : DocComment.bare name.text.toList = name.text := by
  obtain ⟨c, cs, htext, hc⟩ := name.begins
  have hback : c ≠ '\\' := by
    rintro rfl
    exact absurd hc (by decide)
  rw [DocComment.bare, htext, List.dropWhile_cons_of_neg (by simpa using hback), ← htext,
    String.ofList_toList]

theorem isBlank_of_mem {c : Char} (h : c ∈ name.text.toList) : Text.isBlank c = false := by
  rcases name.chars c h with hpart | rfl
  · exact Scan.isBlank_of_isNamePart hpart
  · decide

end QualifiedName

namespace Text

theorem dropRepeated_of_not {lead cs : List Char} (h : lead.isPrefixOf cs = false) :
    dropRepeated lead cs = cs := by
  rw [dropRepeated, dif_neg (by simp [h])]

theorem trimStart_indent {margin : List Char} (h : margin.all Scan.isIndent = true) {c : Char}
    (hc : isBlank c = false) (cs : List Char) : trimStart (margin ++ c :: cs) = c :: cs := by
  rw [trimStart, List.dropWhile_append_of_pos, List.dropWhile_cons_of_neg (by simp [hc])]
  exact fun d hd => Scan.isBlank_of_isIndent (List.all_eq_true.1 h d hd)

end Text

namespace DocComment

open Skeleton Text

variable {margin : List Char} (hmargin : margin.all Scan.isIndent = true)
include hmargin

theorem value?_throwsLine (name : QualifiedName) :
    value? throwsTag.toList (throwsLine margin name) = some name.text.toList := by
  obtain ⟨c, cs, htext, hc⟩ := name.begins
  have hcontent : content (throwsLine margin name) = "@throws ".toList ++ name.text.toList := by
    have hline : throwsLine margin name = margin ++ '*' :: (" @throws ".toList ++ name.text.toList) := by
      simp [throwsLine]
    rw [content, hline, trimStart_indent hmargin (by decide), dropRepeated_of_not (by rfl)]
    rfl
  have hword : firstWord (' ' :: name.text.toList) = name.text.toList := by
    have htrim : trimStart (' ' :: name.text.toList) = name.text.toList := by
      have hblank : isBlank c = false := name.isBlank_of_mem (htext ▸ List.mem_cons_self)
      have hspace : [' '].all Scan.isIndent = true := by decide
      rw [htext]
      exact trimStart_indent hspace hblank cs
    rw [firstWord, htrim, List.takeWhile_eq_self_iff]
    intro d hd
    rw [name.isBlank_of_mem hd]
    rfl
  have hend : dropRepeatedEnd "*/".toList name.text.toList = name.text.toList := by
    have hslash : '/' ∉ name.text.toList.reverse := by
      rw [List.mem_reverse]
      exact name.not_mem (by decide) (by decide)
    have hnot : ("*/".toList.reverse).isPrefixOf name.text.toList.reverse = false := by
      cases hrev : name.text.toList.reverse with
      | nil => rfl
      | cons d ds =>
          have hd : d ≠ '/' := fun hd => hslash (by simp [hrev, hd])
          simp [List.isPrefixOf, hd.symm]
    rw [dropRepeatedEnd, dropRepeated_of_not hnot, List.reverse_reverse]
  have hdrop : ("@throws ".toList ++ name.text.toList).drop throwsTag.toList.length =
      ' ' :: name.text.toList := rfl
  have htag : throwsTag.toList.isPrefixOf ("@throws ".toList ++ name.text.toList) = true := rfl
  rw [value?, hcontent]
  simp only [hdrop, htag, hword, hend]
  simp [htext, isBlank]

theorem value?_close : value? throwsTag.toList (margin ++ "*/".toList) = none := by
  have hcontent : content (margin ++ "*/".toList) = ['/'] := by
    have hline : margin ++ "*/".toList = margin ++ '*' :: ['/'] := rfl
    rw [content, hline, trimStart_indent hmargin (by decide), dropRepeated_of_not (by decide)]
    decide
  rw [value?, hcontent]
  rfl

theorem newline_not_mem_margin : '\n' ∉ margin := fun h =>
  absurd (List.all_eq_true.1 hmargin _ h) (by decide)

theorem newline_not_mem_throwsLine (name : QualifiedName) : '\n' ∉ throwsLine margin name := by
  simp only [throwsLine, List.mem_append, not_or]
  exact ⟨⟨newline_not_mem_margin hmargin, by decide⟩, name.not_mem (by decide) (by decide)⟩

-- The lines of a doc comment give its exceptions in their order.
theorem values_docComment (annotated : List QualifiedName) :
    values throwsTag (String.ofList (docComment margin annotated)) =
      annotated.map fun name => name.text.toList := by
  have hlines (names : List QualifiedName) :
      (splitAt '\n' (names.flatMap (fun name => throwsLine margin name ++ ['\n']) ++
        (margin ++ "*/".toList))).filterMap (value? throwsTag.toList) =
          names.map fun name => name.text.toList := by
    induction names with
    | nil =>
        have hclose : '\n' ∉ margin ++ "*/".toList := by
          rw [List.mem_append, not_or]
          exact ⟨newline_not_mem_margin hmargin, by decide⟩
        rw [List.flatMap_nil, List.nil_append, splitAt_of_not_mem hclose,
          List.filterMap_cons_none (value?_close hmargin)]
        rfl
    | cons name names ih =>
        rw [List.flatMap_cons, List.append_assoc, List.append_assoc, List.singleton_append,
          splitAt_append_cons, splitAt_of_not_mem (newline_not_mem_throwsLine hmargin name),
          List.singleton_append, List.filterMap_cons_some (value?_throwsLine hmargin name), ih,
          List.map_cons]
  have hopen : docComment margin annotated = "/**".toList ++ '\n' ::
      (annotated.flatMap (fun name => throwsLine margin name ++ ['\n']) ++ (margin ++ "*/".toList)) := rfl
  have hnone : value? throwsTag.toList "/**".toList = none := by
    decide +kernel
  rw [values, String.toList_ofList, hopen, splitAt_append_cons, splitAt_of_not_mem (by decide),
    List.singleton_append, List.filterMap_cons_none hnone, hlines]

theorem throws_docComment (annotated : List QualifiedName) :
    throws (String.ofList (docComment margin annotated)) = annotated.map QualifiedName.text := by
  rw [throws, values_docComment hmargin, List.flatMap_map]
  induction annotated with
  | nil => rfl
  | cons name annotated ih =>
      obtain ⟨c, cs, htext, -⟩ := name.begins
      have hsplit : splitAt '|' name.text.toList = [name.text.toList] :=
        splitAt_of_not_mem (name.not_mem (by decide) (by decide))
      rw [List.flatMap_cons, hsplit, List.singleton_append, List.filter_cons_of_pos (by simp [htext]),
        List.map_cons, ih, name.bare_text, List.map_cons]

end DocComment

end Census
