import Census.Text.Blank
import Census.Xml.Event
import Mathlib.Data.List.DropRight
import Mathlib.Data.List.TakeWhile

namespace Census

open Text

namespace Text

variable {cs : List Char}

-- A text with something in it that neither begins nor ends with white space.
structure Trimmed (cs : List Char) : Prop where
  nonempty : cs ≠ []
  front : cs.head?.any isBlank = false
  back : cs.getLast?.any isBlank = false

theorem Trimmed.trim {s : String} (h : Trimmed s.toList) : Text.trim s = s := by
  have hstart : trimStart s.toList = s.toList := by
    obtain ⟨c, rest, hcs⟩ := List.exists_cons_of_ne_nil h.nonempty
    have hc : isBlank c = false := by simpa [hcs] using h.front
    rw [trimStart, hcs, List.dropWhile_cons_of_neg (by simp [hc])]
  have hend : trimEnd s.toList = s.toList := List.rdropWhile_eq_self_iff.2 fun hne => by
    simpa [List.getLast?_eq_some_getLast hne] using h.back
  rw [Text.trim, hstart, hend, String.ofList_toList]

end Text

namespace Xml

variable {cs rest name text gap : List Char} {opened : List (List Char)}

theorem isBlank_of_isSpace {c : Char} (h : isSpace c = true) : isBlank c = true := by
  have hc : c = ' ' ∨ c = '\t' ∨ c = '\r' ∨ c = '\n' := by simpa [isSpace, or_assoc] using h
  rcases hc with rfl | rfl | rfl | rfl <;> decide

theorem isSpace_of_not_isBlank {c : Char} (h : isBlank c = false) : isSpace c = false :=
  Bool.eq_false_iff.2 fun hspace => by simp [isBlank_of_isSpace hspace] at h

-- What the name of an element consists of: no white space and nothing that is part of markup.
def isNamePart (c : Char) : Bool := !isSpace c && !("<>/!?\"'".toList.contains c)

def IsName (name : List Char) : Prop := name ≠ [] ∧ name.all isNamePart = true

instance : Decidable (IsName name) := inferInstanceAs (Decidable (_ ∧ _))

def openTag (name : List Char) : List Char := '<' :: (name ++ ['>'])

def closeTag (name : List Char) : List Char := '<' :: '/' :: (name ++ ['>'])

section Escapes

theorem resolve?_escapeChar (c : Char) (rest : List Char) :
    resolve? 0 (escapeChar c ++ rest) = (resolve? 0 rest).map (c :: ·) := by
  have named (name : List Char) (h : named? name = some c) (hplain : ∀ d ∈ name, d ≠ ';' ∧ d ≠ '&') :
      resolve? 0 ('&' :: (name ++ ';' :: rest)) = (resolve? 0 rest).map (c :: ·) := by
    have htake : (name ++ ';' :: rest).takeWhile (fun d => d ≠ ';' && d ≠ '&') = name := by
      rw [List.takeWhile_append_of_pos (by simpa using hplain)]
      simp
    have hskip (cs : List Char) : resolve? (cs.length + 1) (cs ++ ';' :: rest) = resolve? 0 rest := by
      induction cs with
      | nil => rfl
      | cons d cs ih => exact ih
    rw [resolve?, if_pos rfl, reference?]
    simp only [htake, List.drop_left, List.head?_cons, if_true, h, Option.map_some, hskip]
  rw [escapeChar]
  split
  · rename_i hc
    subst hc
    exact named "amp".toList rfl (by simp)
  split
  · rename_i hc
    subst hc
    exact named "lt".toList rfl (by simp)
  split
  · rename_i hc
    subst hc
    exact named "gt".toList rfl (by simp)
  · rename_i hamp _ _
    rw [List.singleton_append, resolve?, if_neg hamp]

-- Escaped text is resolved to what it was.
theorem resolve?_escape (cs : List Char) : resolve? 0 (escape cs) = some cs := by
  induction cs with
  | nil => rfl
  | cons c cs ih => rw [escape, List.flatMap_cons, resolve?_escapeChar, ← escape, ih, Option.map_some]

end Escapes

section Markup

-- A tag is as long as its content, if no quote and no bracket is in it.
theorem tagLength?_append (text rest : List Char) (h : ∀ c ∈ text, c ≠ '>' ∧ c ≠ '"' ∧ c ≠ '\'') :
    tagLength? none (text ++ '>' :: rest) = some text.length := by
  induction text with
  | nil => rfl
  | cons c text ih =>
      obtain ⟨⟨hclose, hdouble, hsingle⟩, htext⟩ := List.forall_mem_cons.1 h
      simp only [List.cons_append, tagLength?, hclose, hdouble, hsingle, decide_false, Bool.or_self,
        Bool.false_eq_true, if_false, ih htext, Option.map_some, List.length_cons]

variable (hname : IsName name)
include hname

theorem IsName.part {c : Char} (hc : c ∈ name) : isNamePart c = true := List.all_eq_true.1 hname.2 c hc

theorem IsName.not_isSpace {c : Char} (hc : c ∈ name) : isSpace c = false := by
  have hpart := hname.part hc
  rw [isNamePart, Bool.and_eq_true] at hpart
  simpa using hpart.1

theorem IsName.ne {c : Char} (hc : c ∈ name) {d : Char} (hd : d ∈ "<>/!?\"'".toList) : c ≠ d := by
  rintro rfl
  have hpart := hname.part hc
  rw [isNamePart, List.contains_iff_mem.2 hd, Bool.and_eq_true] at hpart
  exact absurd hpart.2 (by decide)

theorem markup_openTag (rest : List Char) :
    markup (name ++ '>' :: rest) = .ok (.startTag name, name.length + 1) := by
  obtain ⟨c, cs, rfl⟩ := List.exists_cons_of_ne_nil hname.1
  have hplain (d : Char) (hd : d ∈ "<>/!?\"'".toList) : d ≠ c := (hname.ne List.mem_cons_self hd).symm
  have hlength := tagLength?_append (c :: cs) rest fun d hd =>
    ⟨hname.ne hd (by decide), hname.ne hd (by decide), hname.ne hd (by decide)⟩
  have hslash : (c :: cs).getLast? ≠ some '/' := fun hlast =>
    hname.ne (List.mem_of_getLast? hlast) (by decide) rfl
  have htake : (c :: cs).takeWhile (fun d => !isSpace d) = c :: cs :=
    List.takeWhile_eq_self_iff.2 fun d hd => by simp [hname.not_isSpace hd]
  have hbegin (s : String) {d : Char} {ds : List Char} (hs : s.toList = d :: ds)
      (hd : d ∈ "<>/!?\"'".toList) : startsWith s (c :: cs ++ '>' :: rest) = false := by
    rw [startsWith, hs, List.cons_append, List.isPrefixOf, beq_eq_false_iff_ne.2 (hplain d hd), Bool.false_and]
  rw [markup, hbegin "![" rfl (by decide), hbegin "!-" rfl (by decide), hbegin "!" rfl (by decide),
    hbegin "?" rfl (by decide), hbegin "/" rfl (by decide)]
  simp only [List.cons_append, List.isEmpty_cons, Bool.false_eq_true, if_false]
  rw [← List.cons_append, tag, hlength]
  simp only
  rw [List.take_left, startTag, if_neg hslash, htake]

theorem markup_closeTag (rest : List Char) :
    markup ('/' :: (name ++ '>' :: rest)) = .ok (.endTag name, name.length + 2) := by
  have hlength := tagLength?_append ('/' :: name) rest (List.forall_mem_cons.2 ⟨by decide, fun d hd =>
    ⟨hname.ne hd (by decide), hname.ne hd (by decide), hname.ne hd (by decide)⟩⟩)
  have hvisible : isSpace (name.getLast hname.1) = false := hname.not_isSpace (List.getLast_mem hname.1)
  have hall : name.all isSpace = false :=
    List.all_eq_false.2 ⟨_, List.getLast_mem hname.1, by simp [hvisible]⟩
  have htrim : trimEnd name = name := List.rdropWhile_eq_self_iff.2 fun _ => by simp [hvisible]
  rw [List.cons_append] at hlength
  have hmarkup : markup ('/' :: (name ++ '>' :: rest)) = tag (fun content => endTag content.tail)
      ('/' :: (name ++ '>' :: rest)) := rfl
  rw [hmarkup, tag, hlength]
  simp only
  rw [← List.cons_append, List.take_left, List.tail_cons, endTag, hall]
  simp [htrim]

end Markup

section Events

theorem eventsFrom_of_step {c : Char} {s : Step} (h : cs.dropWhile isSpace = c :: rest)
    (hs : step opened c rest = .ok s) : eventsFrom opened cs =
      (s.events ++ (eventsFrom s.opened s.rest).1, (eventsFrom s.opened s.rest).2) := by
  rw [eventsFrom]
  split
  · simp_all
  · rename_i c' rest' hcs
    obtain ⟨rfl, rfl⟩ := List.cons.inj (h.symm.trans hcs)
    split
    · simp_all
    · rename_i s' hs'
      obtain rfl := Except.ok.inj (hs.symm.trans hs')
      rfl

theorem eventsFrom_of_space (h : cs.all isSpace = true) : eventsFrom opened cs = ([], none) := by
  have hnil : cs.dropWhile isSpace = [] := List.dropWhile_eq_nil_iff.2 (List.all_eq_true.1 h)
  rw [eventsFrom]
  split
  · rfl
  · simp_all

-- The reader passes over white space.
theorem eventsFrom_gap (h : gap.all isSpace = true) (cs : List Char) :
    eventsFrom opened (gap ++ cs) = eventsFrom opened cs := by
  have hdrop : (gap ++ cs).dropWhile isSpace = cs.dropWhile isSpace :=
    List.dropWhile_append_of_pos (List.all_eq_true.1 h)
  rw [eventsFrom, eventsFrom, hdrop]

theorem eventsFrom_openTag (hname : IsName name) (cs : List Char) :
    eventsFrom opened (openTag name ++ cs) = (.opened (localName name) ::
      (eventsFrom (name :: opened) cs).1, (eventsFrom (name :: opened) cs).2) := by
  have htag : openTag name ++ cs = '<' :: (name ++ '>' :: cs) := by simp [openTag]
  refine eventsFrom_of_step (s := ⟨[.opened (localName name)], name :: opened, cs⟩) (by rw [htag]; rfl) ?_
  have hdrop : (name ++ '>' :: cs).drop (name.length + 1) = cs := by
    rw [← List.drop_drop, List.drop_left]
    rfl
  rw [step, if_pos rfl, markup_openTag hname]
  simp only [close, hdrop]

theorem eventsFrom_closeTag (hname : IsName name) (cs : List Char) :
    eventsFrom (name :: opened) (closeTag name ++ cs) =
      (.closed :: (eventsFrom opened cs).1, (eventsFrom opened cs).2) := by
  have htag : closeTag name ++ cs = '<' :: '/' :: (name ++ '>' :: cs) := by simp [closeTag]
  refine eventsFrom_of_step (s := ⟨[.closed], opened, cs⟩) (by rw [htag]; rfl) ?_
  have hdrop : ('/' :: (name ++ '>' :: cs)).drop (name.length + 2) = cs := by
    rw [List.drop_succ_cons, ← List.drop_drop, List.drop_left]
    rfl
  rw [step, if_pos rfl, markup_closeTag hname]
  simp only [close, hdrop, List.head?_cons, if_true, List.tail_cons]

-- Escaped text has no bracket that opens markup.
theorem ne_of_mem_escape {c : Char} (h : c ∈ escape text) : c ≠ '<' := by
  obtain ⟨d, -, hc⟩ := List.mem_flatMap.1 h
  rintro rfl
  revert hc
  rw [escapeChar]
  split
  · decide
  split
  · decide
  split
  · decide
  · rename_i hd _
    simpa using fun h : '<' = d => hd h.symm

theorem escape_trimmed (h : Trimmed text) : ∃ c cs, escape text = c :: cs ∧ isSpace c = false ∧ c ≠ '<' := by
  obtain ⟨c, rest, rfl⟩ := List.exists_cons_of_ne_nil h.nonempty
  have hc : isSpace c = false := isSpace_of_not_isBlank h.front
  rw [escape, List.flatMap_cons, escapeChar]
  split
  · exact ⟨_, _, rfl, by decide, by decide⟩
  split
  · exact ⟨_, _, rfl, by decide, by decide⟩
  split
  · exact ⟨_, _, rfl, by decide, by decide⟩
  · rename_i hlt _
    exact ⟨_, _, rfl, hc, hlt⟩

theorem trimEnd_escape (h : Trimmed text) : trimEnd (escape text) = escape text := by
  obtain ⟨front, c, rfl⟩ : ∃ front c, text = front ++ [c] :=
    ⟨_, _, (List.dropLast_append_getLast h.nonempty).symm⟩
  have hc : isSpace c = false := isSpace_of_not_isBlank (by simpa using h.back)
  have hlast : ∃ before d, escapeChar c = before ++ [d] ∧ isSpace d = false := by
    rw [escapeChar]
    split
    · exact ⟨"&amp".toList, ';', rfl, rfl⟩
    split
    · exact ⟨"&lt".toList, ';', rfl, rfl⟩
    split
    · exact ⟨"&gt".toList, ';', rfl, rfl⟩
    · exact ⟨[], c, rfl, hc⟩
  obtain ⟨before, d, hescape, hd⟩ := hlast
  have hconcat : escape (front ++ [c]) = (escape front ++ before) ++ [d] := by
    simp [escape, hescape]
  rw [hconcat]
  exact List.rdropWhile_concat_neg _ _ _ (by simp [hd])

theorem trimEnd_append_space (h : gap.all isSpace = true) (cs : List Char) :
    trimEnd (cs ++ gap) = trimEnd cs := by
  rw [trimEnd, List.reverse_append, List.dropWhile_append_of_pos (by simpa using h), trimEnd]

-- The text between two tags is reported as it was before it was escaped, without the space around it.
theorem eventsFrom_text (h : Trimmed text) (hgap : gap.all isSpace = true) (cs : List Char) :
    eventsFrom opened (escape text ++ (gap ++ '<' :: cs)) = (.text (String.ofList text) ::
      (eventsFrom opened ('<' :: cs)).1, (eventsFrom opened ('<' :: cs)).2) := by
  obtain ⟨c, inner, hescape, hspace, hlt⟩ := escape_trimmed h
  have hplain : ∀ d ∈ inner ++ gap, (decide (d ≠ '<')) = true := by
    intro d hd
    rcases List.mem_append.1 hd with hd | hd
    · exact decide_eq_true (ne_of_mem_escape (hescape ▸ List.mem_cons_of_mem c hd))
    · refine decide_eq_true fun heq => ?_
      have hmem := List.all_eq_true.1 hgap d hd
      rw [heq] at hmem
      exact absurd hmem (by decide)
  have htext : (inner ++ (gap ++ '<' :: cs)).takeWhile (fun d => decide (d ≠ '<')) = inner ++ gap := by
    rw [← List.append_assoc, List.takeWhile_append_of_pos hplain]
    simp
  have hdrop : (escape text ++ (gap ++ '<' :: cs)).dropWhile isSpace = c :: (inner ++ (gap ++ '<' :: cs)) := by
    rw [hescape, List.cons_append, List.dropWhile_cons_of_neg (by simp [hspace])]
  refine eventsFrom_of_step (s := ⟨[.text (String.ofList text)], opened, '<' :: cs⟩) hdrop ?_
  rw [step, if_neg hlt]
  simp only [htext]
  rw [← List.cons_append, ← hescape, trimEnd_append_space hgap, trimEnd_escape h, resolve?_escape,
    ← List.append_assoc, List.drop_left]

end Events

section Gives

variable {evs evs' : List Event}

-- A piece of a document that gives some events wherever it stands, and leaves all elements open that
-- were open before.
def Gives (cs : List Char) (evs : List Event) : Prop :=
  ∀ opened rest, eventsFrom opened (cs ++ rest) =
    (evs ++ (eventsFrom opened rest).1, (eventsFrom opened rest).2)

theorem Gives.space (h : gap.all isSpace = true) : Gives gap [] := fun _ rest => eventsFrom_gap h rest

theorem Gives.append {cs' : List Char} (h : Gives cs evs) (h' : Gives cs' evs') :
    Gives (cs ++ cs') (evs ++ evs') := by
  intro opened rest
  rw [List.append_assoc, h, h', List.append_assoc]

theorem Gives.flatMap {α : Type} {write : α → List Char} {give : α → List Event} {as : List α}
    (h : ∀ a ∈ as, Gives (write a) (give a)) : Gives (as.flatMap write) (as.flatMap give) := by
  induction as with
  | nil => exact fun _ _ => rfl
  | cons a as ih =>
      rw [List.flatMap_cons, List.flatMap_cons]
      exact (h a List.mem_cons_self).append (ih fun b hb => h b (List.mem_cons_of_mem a hb))

-- An element with a content.
def element (name content : List Char) : List Char := openTag name ++ (content ++ closeTag name)

theorem Gives.element (hname : IsName name) (h : Gives cs evs) :
    Gives (element name cs) (.opened (localName name) :: (evs ++ [.closed])) := by
  intro opened rest
  rw [Xml.element, List.append_assoc, eventsFrom_openTag hname, List.append_assoc, h,
    eventsFrom_closeTag hname]
  simp only [List.cons_append, List.append_assoc, List.nil_append]

-- An element with a text and space around it.
theorem Gives.value {before after : List Char} (hname : IsName name) (htext : Trimmed text)
    (hbefore : before.all isSpace = true) (hafter : after.all isSpace = true) :
    Gives (Xml.element name (before ++ (escape text ++ after)))
      [.opened (localName name), .text (String.ofList text), .closed] := by
  intro opened rest
  have htag : closeTag name ++ rest = '<' :: ('/' :: (name ++ ['>']) ++ rest) := rfl
  rw [Xml.element, List.append_assoc, eventsFrom_openTag hname, List.append_assoc, List.append_assoc,
    List.append_assoc, eventsFrom_gap hbefore, htag, eventsFrom_text htext hafter, ← htag,
    eventsFrom_closeTag hname]
  rfl

theorem Gives.events_eq (h : Gives cs evs) : Xml.events (String.ofList cs) = (evs, none) := by
  have hnil : eventsFrom [] [] = ([], none) := eventsFrom_of_space rfl
  rw [Xml.events, String.toList_ofList, ← List.append_nil cs, h, hnil, List.append_nil]

end Gives

end Xml

end Census
