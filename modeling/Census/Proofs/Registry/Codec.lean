import Census.Proofs.Json.Text
import Census.Proofs.Registry.Settled
import Census.Registry.Codec

namespace Census

open Json (Value)

namespace Json.Value

-- A record is read with the names of its own fields.
theorem record?_object (fields : List (String × Value)) (h : (fields.map (·.1)).Nodup) :
    (Value.object fields).record? (fields.map (·.1)) = some (fields.map (·.2)) := by
  apply mapM_map_some
  intro field hfield
  rw [Assoc.filter_key h hfield]

theorem record?_reread {fields : List (String × Value)} {names : List String}
    (hnames : fields.map (·.1) = names) (h : names.Nodup) :
    (reread (.object fields)).record? names = some (fields.map fun field => field.2.reread) := by
  subst hnames
  have hrecord := record?_object (rereadFields fields)
  rw [rereadFields_eq, List.map_map, List.map_map] at hrecord
  rw [reread, rereadFields_eq]
  exact hrecord h

theorem nat?_reread {n m bound : Nat} (h : (reread (.nat n)).nat? bound = some m) : m = n := by
  rw [nat, reread] at h
  split at h
  · change (if n < bound then some n else none) = some m at h
    split at h
    · exact (Option.some.inj h).symm
    · cases h
  · cases h

-- A written value is plain, and nothing else is read from it.
structure Faithful {α : Type} (write : α → Value) (read? : Value → Option α) (x : α) : Prop where
  plain : (write x).Plain
  only : ∀ y, read? (write x).reread = some y → y = x

namespace Faithful

variable {α : Type} {write : α → Value} {read? : Value → Option α}

theorem plain_array {xs : List α} (h : ∀ x ∈ xs, Faithful write read? x) :
    (Value.array (xs.map write)).Plain := by
  refine .array fun v hv => ?_
  obtain ⟨x, hx, rfl⟩ := List.mem_map.1 hv
  exact (h x hx).plain

theorem only_array {xs ys : List α} (h : ∀ x ∈ xs, Faithful write read? x) {vs : List Value}
    (hvs : (reread (.array (xs.map write))).array? = some vs) (hys : vs.mapM read? = some ys) :
    ys = xs := by
  rw [reread, rereadAll_eq, List.map_map] at hvs
  obtain rfl := Option.some.inj hvs
  exact mapM_map_eq (fun x hx y hy => (h x hx).only y hy) hys

theorem ofString (s : String) : Faithful Value.string string? s where
  plain := .string s
  only _ h := (Option.some.inj h).symm

end Faithful

end Json.Value

open Json.Value

theorem Position.faithful (p : Position) : Faithful toJson ofJson? p where
  plain := by
    refine .object ?_
    simp only [List.mem_cons, List.not_mem_nil, or_false, forall_eq_or_imp, forall_eq]
    exact ⟨.nat p.line, .nat p.column⟩
  only q h := by
    have hrecord : (reread p.toJson).record? ["line", "column"] =
        some [reread (.nat p.line), reread (.nat p.column)] := record?_reread rfl (by decide)
    rw [ofJson?, hrecord] at h
    simp only [Option.bind_eq_bind, Option.bind_eq_some_iff] at h
    obtain ⟨line, hline, column, hcolumn, h⟩ := h
    cases h
    rw [nat?_reread hline, nat?_reread hcolumn]

theorem Span.faithful (s : Span) : Faithful toJson ofJson? s where
  plain := by
    refine .object ?_
    simp only [List.mem_cons, List.not_mem_nil, or_false, forall_eq_or_imp, forall_eq]
    exact ⟨s.start.faithful.plain, s.stop.faithful.plain⟩
  only t h := by
    have hrecord : (reread s.toJson).record? ["start", "end"] =
        some [s.start.toJson.reread, s.stop.toJson.reread] := record?_reread rfl (by decide)
    rw [ofJson?, hrecord] at h
    simp only [Option.bind_eq_bind, Option.bind_eq_some_iff] at h
    obtain ⟨start, hstart, stop, hstop, h⟩ := h
    cases h
    rw [s.start.faithful.only _ hstart, s.stop.faithful.only _ hstop]

theorem DeclarationKind.faithful (kind : DeclarationKind) : Faithful toJson ofJson? kind where
  plain := .string kind.tag
  only other h := by
    cases kind <;> exact (Option.some.inj h).symm

theorem Declaration.faithful {d : Declaration} (hd : d.Settled) :
    Faithful toJson ofJson? d where
  plain := by
    refine .object ?_
    simp only [List.mem_cons, List.not_mem_nil, or_false, forall_eq_or_imp, forall_eq]
    have hexceptions := Faithful.plain_array fun name (_ : name ∈ d.exceptions) =>
      Faithful.ofString name
    exact ⟨.string d.name, d.kind.faithful.plain, .string d.scope, hexceptions,
      d.span.faithful.plain⟩
  only other h := by
    have hrecord : (reread d.toJson).record? ["name", "kind", "namespace", "exceptions", "span"] =
        some [.string d.name, d.kind.toJson.reread, .string d.scope,
          reread (.array (d.exceptions.map .string)), d.span.toJson.reread] :=
      record?_reread rfl (by decide)
    rw [ofJson?, hrecord] at h
    simp only [Option.bind_eq_bind, Option.bind_eq_some_iff] at h
    obtain ⟨name, hname, kind, hkind, scope, hscope, names, hnames, exceptions, hexceptions, span,
      hspan, h⟩ := h
    cases h
    have hnames := Faithful.only_array (fun name _ => Faithful.ofString name) hnames hexceptions
    rw [(Faithful.ofString d.name).only _ hname, d.kind.faithful.only _ hkind,
      (Faithful.ofString d.scope).only _ hscope, d.span.faithful.only _ hspan, hnames,
      eraseDups_of_nodup hd]

theorem Entry.faithful {entry : Entry} (he : entry.Settled) : Faithful toJson ofJson? entry where
  plain := by
    refine .object ?_
    simp only [List.mem_cons, List.not_mem_nil, or_false, forall_eq_or_imp, forall_eq]
    have hlist (kind : DeclarationKind) :
        (Value.array ((entry.ofKind kind).map Declaration.toJson)).Plain :=
      Faithful.plain_array fun d hd => Declaration.faithful (he kind d hd)
    exact ⟨.string entry.name, hlist .classType, hlist .interfaceType, hlist .function⟩
  only other h := by
    have hrecord : (reread entry.toJson).record? ["name", "classes", "interfaces", "functions"] =
        some [.string entry.name, reread (.array (entry.classes.map Declaration.toJson)),
          reread (.array (entry.interfaces.map Declaration.toJson)),
          reread (.array (entry.functions.map Declaration.toJson))] :=
      record?_reread rfl (by decide)
    rw [ofJson?, hrecord] at h
    simp only [Option.bind_eq_bind, Option.bind_eq_some_iff] at h
    obtain ⟨name, hname, vs, hvs, classes, hclasses, ws, hws, interfaces, hinterfaces, us, hus,
      functions, hfunctions, h⟩ := h
    cases h
    have hlist (kind : DeclarationKind) {vs : List Value} {ds : List Declaration}
        (hvs : (reread (.array ((entry.ofKind kind).map Declaration.toJson))).array? = some vs)
        (hds : vs.mapM Declaration.ofJson? = some ds) : ds = entry.ofKind kind :=
      Faithful.only_array (fun d hd => Declaration.faithful (he kind d hd)) hvs hds
    have hclasses := hlist .classType hvs hclasses
    have hinterfaces := hlist .interfaceType hws hinterfaces
    have hfunctions := hlist .function hus hfunctions
    rw [(Faithful.ofString entry.name).only _ hname, hclasses, hinterfaces, hfunctions]
    rfl

theorem Registry.faithful {registry : Registry} (hr : registry.Settled) :
    Faithful toJson ofJson? registry where
  plain := by
    refine .object ?_
    simp only [List.mem_cons, List.not_mem_nil, or_false, forall_eq]
    refine .object fun field hfield => ?_
    obtain ⟨named, hnamed, rfl⟩ := List.mem_map.1 hfield
    exact (Entry.faithful (hr.entries named hnamed)).plain
  only other h := by
    have hrecord : (reread registry.toJson).record? ["namespaces"] =
        some [reread (.object (registry.entries.map fun named => (named.1, named.2.toJson)))] :=
      record?_reread rfl (by decide)
    rw [ofJson?, hrecord] at h
    simp only [Option.bind_eq_bind, Option.bind_eq_some_iff] at h
    obtain ⟨fields, hfields, entries, hentries, h⟩ := h
    cases h
    rw [reread, rereadFields_eq, List.map_map] at hfields
    obtain rfl := Option.some.inj hfields
    have hsame : entries = registry.entries := by
      refine mapM_map_eq (fun named hnamed other hother => ?_) hentries
      obtain ⟨entry, hentry, hother⟩ := Option.bind_eq_some_iff.1 hother
      cases hother
      rw [(Entry.faithful (hr.entries named hnamed)).only _ hentry]
      rfl
    have hfold := Assoc.foldl_insert [] registry.entries hr.names
    rw [hsame, hfold]
    rfl

end Census
