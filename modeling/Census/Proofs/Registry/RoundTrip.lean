import Census.Proofs.Registry.Codec
import Census.Proofs.Registry.Grouped

namespace Census

open Json (Value)

namespace Json.Value

-- Values that come back from their text as they are: all numbers are natural and short.
inductive Exact : Value → Prop
  | null : Exact .null
  | bool (b : Bool) : Exact (.bool b)
  | nat {n : Nat} (h : n < wordBound) : Exact (.nat n)
  | string (s : String) : Exact (.string s)
  | array {items : List Value} (h : ∀ v ∈ items, Exact v) : Exact (.array items)
  | object {fields : List (String × Value)} (h : ∀ field ∈ fields, Exact field.2) :
      Exact (.object fields)

theorem Exact.plain {v : Value} (h : v.Exact) : v.Plain := by
  induction h with
  | null => exact .null
  | bool b => exact .bool b
  | @nat n _ => exact .nat n
  | string s => exact .string s
  | array _ ih => exact .array ih
  | object _ ih => exact .object ih

theorem Exact.reread_eq {v : Value} (h : v.Exact) : v.reread = v := by
  induction h with
  | @nat n h =>
      have hshort : Word.isShort (n : Int) = true := by
        simp only [wordBound] at h
        simp only [Word.isShort, Bool.and_eq_true, decide_eq_true_eq]
        omega
      rw [Value.nat, reread, if_pos hshort]
  | @array items _ ih =>
      rw [reread, rereadAll_eq, List.map_congr_left ih, List.map_id']
  | @object fields _ ih =>
      have hfields : (fields.map fun field => (field.1, field.2.reread)) = fields :=
        (List.map_congr_left fun field hfield => by rw [ih field hfield]).trans (List.map_id' fields)
      rw [reread, rereadFields_eq, hfields]
  | _ => rfl

theorem Exact.read?_print {v : Value} (h : v.Exact) : read? v.print = some v := by
  rw [h.plain.read?_print, h.reread_eq]

-- What is written can be read from its text again, and it is what was written.
structure Returns {α : Type} (write : α → Value) (read? : Value → Option α) (x : α) : Prop where
  exact : (write x).Exact
  back : read? (write x) = some x

namespace Returns

variable {α : Type} {write : α → Value} {read? : Value → Option α} {x : α} {xs : List α}

theorem exact_array (h : ∀ x ∈ xs, Returns write read? x) : (Value.array (xs.map write)).Exact := by
  refine .array fun v hv => ?_
  obtain ⟨x, hx, rfl⟩ := List.mem_map.1 hv
  exact (h x hx).exact

theorem back_array (h : ∀ x ∈ xs, Returns write read? x) :
    (Value.array (xs.map write)).array?.bind (·.mapM read?) = some xs :=
  (mapM_map_some fun x hx => (h x hx).back).trans (congrArg some (List.map_id' xs))

theorem read?_print (h : Returns write read? x) :
    (Value.read? (write x).print).bind read? = some x := by
  rw [h.exact.read?_print, Option.bind_some, h.back]

theorem ofString (s : String) : Returns Value.string string? s := ⟨.string s, rfl⟩

end Returns

theorem record?_fields {fields : List (String × Value)} {names : List String}
    (hnames : fields.map (·.1) = names) (h : names.Nodup) :
    (Value.object fields).record? names = some (fields.map (·.2)) := by
  subst hnames
  exact record?_object fields h

theorem nat?_nat {n bound : Nat} (h : n < bound) : (Value.nat n).nat? bound = some n := if_pos h

end Json.Value

open Json.Value

-- Numbers of one machine word.
def Position.Fits (p : Position) : Prop := p.line < wordBound ∧ p.column < wordBound

def Span.Fits (s : Span) : Prop := s.start.Fits ∧ s.stop.Fits

-- What declarations, entries and registries are in any run: nothing is named twice where names
-- make a set, and all numbers are machine words.
structure Declaration.Storable (d : Declaration) : Prop where
  settled : d.Settled
  fits : d.span.Fits

def Entry.Storable (entry : Entry) : Prop := ∀ d ∈ entry.declarations, d.Storable

structure Registry.Storable (registry : Registry) : Prop where
  names : registry.names.Nodup
  entries : ∀ named ∈ registry.entries, named.2.Storable

section Decisions

instance (p : Position) : Decidable p.Fits := inferInstanceAs (Decidable (_ ∧ _))

instance (s : Span) : Decidable s.Fits := inferInstanceAs (Decidable (_ ∧ _))

instance (d : Declaration) : Decidable d.Settled := inferInstanceAs (Decidable d.exceptions.Nodup)

instance (d : Declaration) : Decidable d.Storable :=
  decidable_of_iff (d.Settled ∧ d.span.Fits) ⟨fun h => ⟨h.1, h.2⟩, fun h => ⟨h.settled, h.fits⟩⟩

instance (entry : Entry) : Decidable entry.Storable :=
  inferInstanceAs (Decidable (∀ d ∈ entry.declarations, d.Storable))

instance (registry : Registry) : Decidable registry.Storable :=
  decidable_of_iff (registry.names.Nodup ∧ ∀ named ∈ registry.entries, named.2.Storable)
    ⟨fun h => ⟨h.1, h.2⟩, fun h => ⟨h.names, h.entries⟩⟩

end Decisions

theorem Position.returns {p : Position} (h : p.Fits) : Returns toJson ofJson? p where
  exact := by
    refine .object ?_
    simp only [List.mem_cons, List.not_mem_nil, or_false, forall_eq_or_imp, forall_eq]
    exact ⟨.nat h.1, .nat h.2⟩
  back := by
    have hrecord : p.toJson.record? ["line", "column"] = some [.nat p.line, .nat p.column] :=
      record?_fields rfl (by decide)
    rw [ofJson?, hrecord]
    simp only [nat?_nat h.1, nat?_nat h.2]
    rfl

theorem Span.returns {s : Span} (h : s.Fits) : Returns toJson ofJson? s where
  exact := by
    refine .object ?_
    simp only [List.mem_cons, List.not_mem_nil, or_false, forall_eq_or_imp, forall_eq]
    exact ⟨(Position.returns h.1).exact, (Position.returns h.2).exact⟩
  back := by
    have hrecord : s.toJson.record? ["start", "end"] = some [s.start.toJson, s.stop.toJson] :=
      record?_fields rfl (by decide)
    rw [ofJson?, hrecord]
    simp only [(Position.returns h.1).back, (Position.returns h.2).back]
    rfl

theorem DeclarationKind.returns (kind : DeclarationKind) : Returns toJson ofJson? kind where
  exact := .string kind.tag
  back := by cases kind <;> decide

theorem Declaration.returns {d : Declaration} (h : d.Storable) : Returns toJson ofJson? d where
  exact := by
    refine .object ?_
    simp only [List.mem_cons, List.not_mem_nil, or_false, forall_eq_or_imp, forall_eq]
    have hexceptions := Returns.exact_array fun name (_ : name ∈ d.exceptions) => Returns.ofString name
    exact ⟨.string d.name, d.kind.returns.exact, .string d.scope, hexceptions, (Span.returns h.fits).exact⟩
  back := by
    have hrecord : d.toJson.record? ["name", "kind", "namespace", "exceptions", "span"] =
        some [.string d.name, d.kind.toJson, .string d.scope, .array (d.exceptions.map .string),
          d.span.toJson] :=
      record?_fields rfl (by decide)
    have hexceptions : (d.exceptions.map Value.string).mapM string? = some d.exceptions :=
      Returns.back_array fun name _ => Returns.ofString name
    rw [ofJson?, hrecord]
    simp only [array?, string?, hexceptions, d.kind.returns.back, (Span.returns h.fits).back,
      Option.bind_eq_bind, Option.bind_some, eraseDups_of_nodup h.settled]
    rfl

theorem Entry.returns {entry : Entry} (h : entry.Storable) : Returns toJson ofJson? entry := by
  have hall (kind : DeclarationKind) :
      ∀ d ∈ entry.ofKind kind, Returns Declaration.toJson Declaration.ofJson? d :=
    fun d hd => Declaration.returns (h d (entry.mem_declarations.2 ⟨kind, hd⟩))
  have hlist (kind : DeclarationKind) : ((entry.ofKind kind).map Declaration.toJson).mapM
      Declaration.ofJson? = some (entry.ofKind kind) := Returns.back_array (hall kind)
  refine ⟨.object ?_, ?_⟩
  · simp only [List.mem_cons, List.not_mem_nil, or_false, forall_eq_or_imp, forall_eq]
    exact ⟨.string entry.name, Returns.exact_array (hall .classType),
      Returns.exact_array (hall .interfaceType), Returns.exact_array (hall .function)⟩
  · have hrecord : entry.toJson.record? ["name", "classes", "interfaces", "functions"] =
        some [.string entry.name, .array (entry.classes.map Declaration.toJson),
          .array (entry.interfaces.map Declaration.toJson),
          .array (entry.functions.map Declaration.toJson)] :=
      record?_fields rfl (by decide)
    have hclasses : (entry.classes.map _).mapM _ = some entry.classes := hlist .classType
    have hinterfaces : (entry.interfaces.map _).mapM _ = some entry.interfaces := hlist .interfaceType
    have hfunctions : (entry.functions.map _).mapM _ = some entry.functions := hlist .function
    rw [ofJson?, hrecord]
    simp only [array?, string?, hclasses, hinterfaces, hfunctions, Option.bind_eq_bind,
      Option.bind_some]
    rfl

theorem Registry.returns {registry : Registry} (h : registry.Storable) :
    Returns toJson ofJson? registry where
  exact := by
    refine .object ?_
    simp only [List.mem_cons, List.not_mem_nil, or_false, forall_eq]
    refine .object fun field hfield => ?_
    obtain ⟨named, hnamed, rfl⟩ := List.mem_map.1 hfield
    exact (Entry.returns (h.entries named hnamed)).exact
  back := by
    have hrecord : registry.toJson.record? ["namespaces"] =
        some [.object (registry.entries.map fun named => (named.1, named.2.toJson))] :=
      record?_fields rfl (by decide)
    have hentries : (registry.entries.map fun named => (named.1, named.2.toJson)).mapM
        (fun field => (Entry.ofJson? field.2).bind fun entry => some (field.1, entry)) =
          some registry.entries := by
      refine (mapM_map_some (h := id) fun named hnamed => ?_).trans (congrArg some (List.map_id _))
      rw [(Entry.returns (h.entries named hnamed)).back, Option.bind_some]
      rfl
    have hfold := Assoc.foldl_insert [] registry.entries h.names
    rw [List.nil_append] at hfold
    rw [ofJson?, hrecord]
    simp only [object?, Option.bind_eq_bind, Option.bind_some, Option.pure_def, hentries, hfold]

end Census
