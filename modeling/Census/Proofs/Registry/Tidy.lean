import Census.Registry.DocComment
import Mathlib.Data.List.TakeWhile

namespace Census

open Text

-- No separator stands in front, and no white space anywhere.
structure Tidy (name : String) : Prop where
  front : name.toList.head? ≠ some '\\'
  solid : ∀ c ∈ name.toList, isBlank c = false

namespace Text

variable {c : Char} {cs : List Char}

theorem dropRepeated_suffix (lead cs : List Char) : dropRepeated lead cs <:+ cs := by
  induction cs using dropRepeated.induct lead with
  | case1 cs h ih =>
      rw [dropRepeated, dif_pos h]
      exact ih.trans (List.drop_suffix _ cs)
  | case2 cs h =>
      have hkept : dropRepeated lead cs = cs := by rw [dropRepeated, dif_neg h]
      exact ⟨[], hkept⟩

theorem mem_of_mem_dropRepeatedEnd {tail : List Char} (h : c ∈ dropRepeatedEnd tail cs) : c ∈ cs := by
  rw [dropRepeatedEnd, List.mem_reverse] at h
  exact List.mem_reverse.1 ((dropRepeated_suffix _ _).subset h)

theorem isBlank_of_mem_firstWord (h : c ∈ firstWord cs) : isBlank c = false :=
  Bool.not_eq_true' _ ▸ (List.all_eq_true.1 List.all_takeWhile c h)

theorem mem_of_mem_splitAt {d : Char} {part : List Char} (h : part ∈ splitAt d cs) :
    ∀ c ∈ part, c ∈ cs := by
  induction cs generalizing part with
  | nil =>
      obtain rfl := List.mem_singleton.1 h
      exact nofun
  | cons first rest ih =>
      rw [splitAt] at h
      split at h
      · rcases List.mem_cons.1 h with rfl | h
        · exact nofun
        · exact fun c hc => List.mem_cons_of_mem _ (ih h c hc)
      · split at h
        · obtain rfl := List.mem_singleton.1 h
          exact fun c hc => List.mem_singleton.1 hc ▸ List.mem_cons_self
        · rename_i own parts hparts
          rw [hparts] at ih
          rcases List.mem_cons.1 h with rfl | h
          · intro c hc
            rcases List.mem_cons.1 hc with rfl | hc
            · exact List.mem_cons_self
            · exact List.mem_cons_of_mem _ (ih List.mem_cons_self c hc)
          · exact fun c hc => List.mem_cons_of_mem _ (ih (List.mem_cons_of_mem _ h) c hc)

end Text

namespace DocComment

variable {cs : List Char} {doc : String}

theorem toList_bare (cs : List Char) : (bare cs).toList = cs.dropWhile (· = '\\') :=
  String.toList_ofList

theorem tidy_bare (h : ∀ c ∈ cs, isBlank c = false) : Tidy (bare cs) := by
  refine ⟨fun hfront => ?_, fun c hc => ?_⟩
  · rw [toList_bare] at hfront
    have hkept := List.head?_dropWhile_not (fun c : Char => decide (c = '\\')) cs
    rw [hfront] at hkept
    cases hkept
  · rw [toList_bare] at hc
    exact h c ((List.dropWhile_suffix _).subset hc)

-- A name of separators only has nothing left.
theorem bare_eq_empty : bare cs = "" ↔ ∀ c ∈ cs, c = '\\' := by
  rw [← String.toList_inj, toList_bare, String.toList_empty, List.dropWhile_eq_nil_iff]
  simp only [decide_eq_true_eq]

theorem bare_of_front {name : String} (h : name.toList.head? ≠ some '\\') :
    bare name.toList = name := by
  rw [← String.toList_inj, toList_bare]
  cases hname : name.toList with
  | nil => rfl
  | cons c cs =>
      rw [hname] at h
      exact List.dropWhile_cons_of_neg (by simpa using h)

-- A value is a word.
theorem word_of_mem_values {tag : String} {value : List Char} (h : value ∈ values tag doc) :
    value ≠ [] ∧ ∀ c ∈ value, isBlank c = false := by
  obtain ⟨line, -, hvalue⟩ := List.mem_filterMap.1 h
  unfold value? at hvalue
  dsimp only at hvalue
  split at hvalue
  · split at hvalue
    · cases hvalue
    · rename_i hne
      cases hvalue
      exact ⟨by simpa using hne, fun c hc => isBlank_of_mem_firstWord (mem_of_mem_dropRepeatedEnd hc)⟩
  · cases hvalue

-- A word that is made of separators only, and of at least one of them.
def Hollow (word : List Char) : Prop := word ≠ [] ∧ ∀ c ∈ word, c = '\\'

-- A doc comment whose package is nothing but separators.
def HollowPackage (doc : String) : Prop :=
  ∃ value, (values packageTag doc).head? = some value ∧ Hollow value

-- A doc comment that names an exception by nothing but separators.
def HollowThrows (doc : String) : Prop :=
  ∃ value ∈ values throwsTag doc, ∃ part ∈ splitAt '|' value, Hollow part

theorem tidy_of_package? {package : String} (h : package? doc = some package) : Tidy package := by
  obtain ⟨value, hvalue, rfl⟩ := Option.map_eq_some_iff.1 h
  exact tidy_bare (word_of_mem_values (List.mem_of_mem_head? hvalue)).2

theorem package?_eq_empty : package? doc = some "" ↔ HollowPackage doc := by
  rw [package?, Option.map_eq_some_iff]
  constructor
  · rintro ⟨value, hvalue, hempty⟩
    exact ⟨value, hvalue, (word_of_mem_values (List.mem_of_mem_head? hvalue)).1,
      bare_eq_empty.1 hempty⟩
  · rintro ⟨value, hvalue, -, hempty⟩
    exact ⟨value, hvalue, bare_eq_empty.2 hempty⟩

theorem mem_throws {name : String} : name ∈ throws doc ↔
    ∃ value ∈ values throwsTag doc, ∃ part ∈ splitAt '|' value, part ≠ [] ∧ bare part = name := by
  simp only [throws, List.mem_map, List.mem_filter, List.mem_flatMap, Bool.not_eq_true',
    List.isEmpty_eq_false_iff]
  constructor
  · rintro ⟨part, ⟨⟨value, hvalue, hpart⟩, hne⟩, hname⟩
    exact ⟨value, hvalue, part, hpart, hne, hname⟩
  · rintro ⟨value, hvalue, part, hpart, hne, hname⟩
    exact ⟨part, ⟨⟨value, hvalue, hpart⟩, hne⟩, hname⟩

theorem tidy_of_mem_throws {name : String} (h : name ∈ throws doc) : Tidy name := by
  obtain ⟨value, hvalue, part, hpart, -, rfl⟩ := mem_throws.1 h
  exact tidy_bare fun c hc => (word_of_mem_values hvalue).2 c (mem_of_mem_splitAt hpart c hc)

theorem empty_mem_throws : "" ∈ throws doc ↔ HollowThrows doc := by
  simp only [mem_throws, bare_eq_empty]
  rfl

end DocComment

end Census
