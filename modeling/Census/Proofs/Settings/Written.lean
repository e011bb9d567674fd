import Census.Proofs.Json.Word
import Census.Proofs.Xml.Written
import Census.Settings.Document

namespace Census

open Text Xml

variable {o acc : Override}

namespace Override

-- The parts of a document, and what can be written in each.
inductive Section where
  | cache | imageConvert | parser
deriving DecidableEq, Repr

inductive Field where
  | driver | location | fontFamily | nesting
deriving DecidableEq, Repr

namespace Section

def element : Section → String
  | .cache => "cache"
  | .imageConvert => "imageConvert"
  | .parser => "parser"

theorem named (part : Section) : IsName part.element.toList := by cases part <;> decide

theorem localName_element (part : Section) : localName part.element.toList = part.element := by
  cases part <;> decide

end Section

namespace Field

def part : Field → Section
  | .driver | .location => .cache
  | .fontFamily => .imageConvert
  | .nesting => .parser

def element : Field → String
  | .driver => "driver"
  | .location => "location"
  | .fontFamily => "fontFamily"
  | .nesting => "nesting"

theorem named (field : Field) : IsName field.element.toList := by cases field <;> decide

theorem localName_element (field : Field) : localName field.element.toList = field.element := by
  cases field <;> decide

end Field

-- The text that stands for a field, if it is present. Numbers are written in base ten.
def value? (o : Override) : Field → Option String
  | .driver => o.driver.map CacheDriver.name
  | .location => o.location
  | .fontFamily => o.fontFamily
  | .nesting => o.nesting.map toString

-- What can be written: texts that do not begin or end with white space, and numbers in range. There
-- is no size of the font.
structure Writable (o : Override) : Prop where
  fontSize : o.fontSize = none
  location : ∀ s ∈ o.location, Trimmed s.toList
  fontFamily : ∀ s ∈ o.fontFamily, Trimmed s.toList
  nesting : ∀ n ∈ o.nesting, 0 < n ∧ n < nestingBound

end Override

open Override

-- Any number of spaces, tabs and ends of lines.
structure Blanks where
  chars : List Char
  space : chars.all isSpace = true

-- How an element of a field is laid out: what stands in front of it, and around its value.
structure FieldLayout where
  field : Field
  lead : Blanks
  before : Blanks
  after : Blanks

structure SectionLayout where
  part : Section
  fields : List FieldLayout
  lead : Blanks
  ending : Blanks
  belongs : ∀ layout ∈ fields, layout.field.part = part

-- The order of a document with any root, and the space in it.
structure DocumentLayout where
  root : List Char
  sections : List SectionLayout
  lead : Blanks
  ending : Blanks
  trailer : Blanks
  named : IsName root

-- A field that is not present is not written.
def FieldLayout.write (layout : FieldLayout) (o : Override) : List Char :=
  match o.value? layout.field with
  | some value => layout.lead.chars ++ Xml.element layout.field.element.toList
      (layout.before.chars ++ (escape value.toList ++ layout.after.chars))
  | none => []

def SectionLayout.write (layout : SectionLayout) (o : Override) : List Char :=
  layout.lead.chars ++ Xml.element layout.part.element.toList
    (layout.fields.flatMap (·.write o) ++ layout.ending.chars)

namespace DocumentLayout

def write (layout : DocumentLayout) (o : Override) : String :=
  String.ofList (layout.lead.chars ++ (Xml.element layout.root
    (layout.sections.flatMap (·.write o) ++ layout.ending.chars) ++ layout.trailer.chars))

def fields (layout : DocumentLayout) : List Field :=
  layout.sections.flatMap fun part => part.fields.map (·.field)

-- There is a place for each field that is present.
def Covers (layout : DocumentLayout) (o : Override) : Prop :=
  ∀ field, (o.value? field).isSome → field ∈ layout.fields

end DocumentLayout

namespace Override

section Values

theorem trimmed_toString (n : Nat) : Trimmed (toString n).toList := by
  have hdigit {c : Char} (hc : c ∈ Nat.toDigits 10 n) : isBlank c = false := by
    have h := Nat.isDigit_of_mem_toDigits (by decide) (by decide) hc
    simp only [Char.isDigit, Bool.and_eq_true, decide_eq_true_eq] at h
    have hlow : 48 ≤ c.toNat := h.1
    have hhigh : c.toNat ≤ 57 := h.2
    simp only [isBlank, Bool.or_eq_false_iff, Bool.and_eq_false_iff, decide_eq_false_iff_not]
    omega
  rw [Nat.toString_eq_repr, Nat.toList_repr]
  refine ⟨List.length_pos_iff.1 Nat.length_toDigits_pos, ?_, ?_⟩
  · exact (Option.any_eq_false _ _).2 fun c hc => hdigit (List.mem_of_head? hc)
  · exact (Option.any_eq_false _ _).2 fun c hc => hdigit (List.mem_of_getLast? hc)

-- Decimal digits are read back.
theorem nesting?_toString {n : Nat} (hpos : 0 < n) (hbound : n < nestingBound) :
    nesting? (toString n) = some n := by
  have hdigit (c : Char) (hc : c ∈ Nat.toDigits 10 n) : c.isDigit = true :=
    Nat.isDigit_of_mem_toDigits (by decide) (by decide) hc
  have hsign : (Nat.toDigits 10 n).head? ≠ some '+' := fun h =>
    absurd (hdigit '+' (List.mem_of_mem_head? h)) (by decide)
  have hne : Nat.toDigits 10 n ≠ [] := List.length_pos_iff.1 Nat.length_toDigits_pos
  have hnumber : Xml.number? (Nat.toDigits 10 n) = some n := by
    rw [Xml.number?, List.isEmpty_eq_false_iff.2 hne, List.all_eq_true.2 hdigit, Json.Word.digitsValue_toDigits]
    rfl
  rw [nesting?, Nat.toString_eq_repr, Nat.toList_repr]
  simp [hsign, hnumber, hpos, hbound]

theorem Writable.trimmed (h : o.Writable) {field : Field} {value : String} (hvalue : o.value? field = some value) :
    Trimmed value.toList := by
  cases field with
  | driver =>
      obtain ⟨driver, hdriver, rfl⟩ := Option.map_eq_some_iff.1 hvalue
      cases driver <;> exact ⟨by decide, rfl, rfl⟩
  | location => exact h.location value hvalue
  | fontFamily => exact h.fontFamily value hvalue
  | nesting =>
      obtain ⟨n, -, rfl⟩ := Option.map_eq_some_iff.1 hvalue
      exact trimmed_toString n

-- Takes over a field of another override, if it is present there.
def adopt (o acc : Override) : Field → Override
  | .driver => { acc with driver := o.driver.or acc.driver }
  | .location => { acc with location := o.location.or acc.location }
  | .fontFamily => { acc with fontFamily := o.fontFamily.or acc.fontFamily }
  | .nesting => { acc with nesting := o.nesting.or acc.nesting }

theorem adopt_of_none {field : Field} (h : o.value? field = none) : o.adopt acc field = acc := by
  cases field with
  | driver => rw [adopt, Option.map_eq_none_iff.1 h, Option.none_or]
  | location => rw [adopt, show o.location = none from h, Option.none_or]
  | fontFamily => rw [adopt, show o.fontFamily = none from h, Option.none_or]
  | nesting => rw [adopt, Option.map_eq_none_iff.1 h, Option.none_or]

-- The element of a field sets it to what was written.
theorem setField_value (h : o.Writable) {field : Field} {value : String} (hvalue : o.value? field = some value) :
    acc.setField field.part.element field.element value = .ok (o.adopt acc field) := by
  cases field with
  | driver =>
      obtain ⟨driver, hdriver, rfl⟩ := Option.map_eq_some_iff.1 hvalue
      have hname : CacheDriver.ofName? driver.name = some driver := by cases driver <;> decide
      simp only [setField, Field.part, Section.element, Field.element, hname, adopt, hdriver, Option.some_or]
  | location =>
      rw [adopt, show o.location = some value from hvalue]
      rfl
  | fontFamily =>
      rw [adopt, show o.fontFamily = some value from hvalue]
      rfl
  | nesting =>
      obtain ⟨n, hn, rfl⟩ := Option.map_eq_some_iff.1 hvalue
      obtain ⟨hpos, hbound⟩ := h.nesting n hn
      simp only [setField, Field.part, Section.element, Field.element, nesting?_toString hpos hbound, adopt, hn,
        Option.some_or]

-- After some fields are taken over, those are as they are there.
theorem foldl_adopt (o acc : Override) (fields : List Field) : fields.foldl o.adopt acc = {
    driver := if .driver ∈ fields then o.driver.or acc.driver else acc.driver
    location := if .location ∈ fields then o.location.or acc.location else acc.location
    fontFamily := if .fontFamily ∈ fields then o.fontFamily.or acc.fontFamily else acc.fontFamily
    fontSize := acc.fontSize
    nesting := if .nesting ∈ fields then o.nesting.or acc.nesting else acc.nesting } := by
  induction fields generalizing acc with
  | nil => simp
  | cons field fields ih =>
      rw [List.foldl_cons, ih]
      cases field <;> simp [adopt, ← Option.or_assoc]

theorem foldl_adopt_empty (h : o.Writable) {fields : List Field}
    (hfields : ∀ field, (o.value? field).isSome → field ∈ fields) : fields.foldl o.adopt empty = o := by
  have adopted {α : Type} (field : Field) {a : Option α} (ha : a.isSome = (o.value? field).isSome) :
      (if field ∈ fields then a.or none else none) = a := by
    split
    · exact Option.or_none
    · rename_i hmem
      refine (Option.not_isSome_iff_eq_none.1 fun hsome => hmem (hfields field ?_)).symm
      rwa [← ha]
  have hdriver := adopted .driver (a := o.driver) Option.isSome_map.symm
  have hlocation := adopted .location (a := o.location) rfl
  have hfamily := adopted .fontFamily (a := o.fontFamily) rfl
  have hnesting := adopted .nesting (a := o.nesting) Option.isSome_map.symm
  rw [foldl_adopt]
  simp only [empty, hdriver, hlocation, hfamily, hnesting, ← h.fontSize]

end Values

section Readings

variable {path : List String} {α : Type}

-- Events that lead back to where they began, with the override changed.
def Makes (path : List String) (evs : List Event) (change : Override → Override) : Prop :=
  ∀ acc, evs.foldlM Reading.step ⟨path, acc⟩ = .ok ⟨path, change acc⟩

theorem Makes.append {evs evs' : List Event} {change change' : Override → Override}
    (h : Makes path evs change) (h' : Makes path evs' change') :
    Makes path (evs ++ evs') fun acc => change' (change acc) := by
  intro acc
  rw [List.foldlM_append, h]
  exact h' _

theorem Makes.flatMap {evs : α → List Event} {change : Override → α → Override} {as : List α}
    (h : ∀ a ∈ as, Makes path (evs a) fun acc => change acc a) :
    Makes path (as.flatMap evs) fun acc => as.foldl change acc := by
  induction as with
  | nil => exact fun _ => rfl
  | cons a as ih =>
      rw [List.flatMap_cons]
      exact (h a List.mem_cons_self).append (ih fun b hb => h b (List.mem_cons_of_mem a hb))

theorem Makes.element {name : String} {evs : List Event} {change : Override → Override}
    (h : Makes (name :: path) evs change) : Makes path (.opened name :: (evs ++ [.closed])) change := by
  intro acc
  rw [List.foldlM_cons]
  change (evs ++ [Event.closed]).foldlM Reading.step ⟨name :: path, acc⟩ = _
  rw [List.foldlM_append, h]
  rfl

end Readings

end Override

section Layouts

variable (h : o.Writable)
include h

-- What a reader meets in the element of a field, and what that makes of the override.
theorem FieldLayout.read (layout : FieldLayout) (path : List String) : ∃ evs, Gives (layout.write o) evs ∧
    Makes (layout.field.part.element :: path) evs fun acc => o.adopt acc layout.field := by
  cases hvalue : o.value? layout.field with
  | none =>
      refine ⟨[], ?_, fun acc => ?_⟩
      · rw [write, hvalue]
        exact .space rfl
      · simp only [adopt_of_none hvalue]
        rfl
  | some value =>
      have htext := h.trimmed hvalue
      have hgives := (Gives.space layout.lead.space).append
        (.value layout.field.named htext layout.before.space layout.after.space)
      rw [Field.localName_element, String.ofList_toList] at hgives
      have hmakes : Makes (layout.field.element :: layout.field.part.element :: path) [.text value] fun acc =>
          o.adopt acc layout.field := fun acc => by
        simp only [List.foldlM_cons, Reading.step, htext.trim, setField_value h hvalue]
        rfl
      exact ⟨_, by rwa [write, hvalue], hmakes.element⟩

theorem SectionLayout.read (layout : SectionLayout) (path : List String) : ∃ evs, Gives (layout.write o) evs ∧
    Makes path evs fun acc => (layout.fields.map (·.field)).foldl o.adopt acc := by
  choose evs hgives hmakes using fun field : FieldLayout => field.read h path
  have hcontent := (Gives.flatMap fun field (_ : field ∈ layout.fields) => hgives field).append
    (.space layout.ending.space)
  rw [List.append_nil] at hcontent
  have helement := (Gives.space layout.lead.space).append (.element layout.part.named hcontent)
  rw [Section.localName_element] at helement
  refine ⟨_, helement, .element ?_⟩
  simp only [List.foldl_map]
  refine .flatMap fun field hfield => ?_
  exact layout.belongs field hfield ▸ hmakes field

theorem DocumentLayout.read (layout : DocumentLayout) : ∃ evs, events (layout.write o) = (evs, none) ∧
    Makes [] evs fun acc => layout.fields.foldl o.adopt acc := by
  choose evs hgives hmakes using fun part : SectionLayout => part.read h [localName layout.root]
  have hcontent := (Gives.flatMap fun part (_ : part ∈ layout.sections) => hgives part).append
    (.space layout.ending.space)
  rw [List.append_nil] at hcontent
  have hdocument := (Gives.space layout.lead.space).append
    ((Gives.element layout.named hcontent).append (.space layout.trailer.space))
  rw [List.append_nil] at hdocument
  refine ⟨_, hdocument.events_eq, .element ?_⟩
  simp only [fields, List.foldl_flatMap]
  exact .flatMap fun part _ => hmakes part

end Layouts

-- Reading undoes writing, however the document is laid out: a document with the present fields of an
-- override gives that override.
theorem Override.ofDocument_write (h : o.Writable) {layout : DocumentLayout} (hcovers : layout.Covers o) :
    ofDocument (layout.write o) = .ok o := by
  obtain ⟨evs, hevents, hmakes⟩ := layout.read h
  rw [ofDocument, hevents]
  simp only [hmakes empty, foldl_adopt_empty h hcovers]

-- A document in another order than its fields have, with space in several places.
def Blanks.none : Blanks := ⟨[], rfl⟩

def Blanks.line : Blanks := ⟨"\r\n\t".toList, by decide⟩

def DocumentLayout.spacious : DocumentLayout where
  root := "x:a".toList
  sections := [
    ⟨.parser, [⟨.nesting, .line, .none, .line⟩], .none, .none, by decide⟩,
    ⟨.cache, [⟨.location, .none, .line, .none⟩, ⟨.driver, .none, .none, .none⟩], .line, .none, by decide⟩]
  lead := .line
  ending := .none
  trailer := .line
  named := by decide

theorem Override.ofDocument_write_spacious :
    let o : Override := ⟨some .file, some "<a> & \"b\"", none, none, some 0xffffffffffffffff⟩
    DocumentLayout.spacious.write o = String.join [
      "\r\n\t<x:a><parser>\r\n\t<nesting>18446744073709551615\r\n\t</nesting></parser>\r\n\t<cache><location>",
      "\r\n\t&lt;a&gt; &amp; \"b\"</location><driver>file</driver></cache></x:a>\r\n\t"] ∧
    Override.ofDocument (DocumentLayout.spacious.write o) = .ok o := by
  intro o
  have hwritable : o.Writable := by
    refine ⟨rfl, ?_, ?_, ?_⟩
    · rintro _ ⟨⟩
      exact ⟨by decide, rfl, rfl⟩
    · rintro _ ⟨⟩
    · rintro _ ⟨⟩
      decide
  have hcovers : DocumentLayout.spacious.Covers o := by
    intro field hfield
    cases field with
    | fontFamily => cases hfield
    | driver | location | nesting => decide
  exact ⟨by decide +kernel, ofDocument_write hwritable hcovers⟩

end Census
