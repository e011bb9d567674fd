import Census.Proofs.Assoc
import Census.Registry.Basic

namespace Census

-- The declarations of a namespace among all that are given, each kind in the given order.
def Entry.gathered (name : String) (ds : List Declaration) : Entry where
  name := name
  classes := ds.filter fun d => d.scope = name ∧ d.kind = .classType
  interfaces := ds.filter fun d => d.scope = name ∧ d.kind = .interfaceType
  functions := ds.filter fun d => d.scope = name ∧ d.kind = .function

-- The namespaces of declarations in the order in which they are first used.
def Registry.grouped (ds : List Declaration) : Registry :=
  ⟨(ds.map Declaration.scope).eraseDups.map fun name => (name, Entry.gathered name ds)⟩

namespace Entry

variable {name : String} {ds : List Declaration} {d : Declaration}

theorem mem_declarations (entry : Entry) :
    d ∈ entry.declarations ↔ ∃ kind, d ∈ entry.ofKind kind := by
  rw [declarations, List.mem_append, List.mem_append]
  constructor
  · rintro ((hd | hd) | hd)
    · exact ⟨.classType, hd⟩
    · exact ⟨.interfaceType, hd⟩
    · exact ⟨.function, hd⟩
  · rintro ⟨_ | _ | _, hd⟩
    · exact .inl (.inl hd)
    · exact .inl (.inr hd)
    · exact .inr hd

theorem ofKind_gathered (name : String) (ds : List Declaration) (kind : DeclarationKind) :
    (gathered name ds).ofKind kind = ds.filter fun d => d.scope = name ∧ d.kind = kind := by
  cases kind <;> rfl

-- A namespace that is used has a declaration.
theorem exists_mem_gathered (h : name ∈ ds.map Declaration.scope) :
    ∃ d, d ∈ (gathered name ds).declarations := by
  obtain ⟨d, hd, rfl⟩ := List.mem_map.1 h
  have hmem : d ∈ (gathered d.scope ds).ofKind d.kind := by
    rw [ofKind_gathered]
    exact List.mem_filter.2 ⟨hd, by simp⟩
  exact ⟨d, (mem_declarations _).2 ⟨d.kind, hmem⟩⟩

theorem gathered_append_of_ne (h : d.scope ≠ name) : gathered name (ds ++ [d]) = gathered name ds := by
  simp [gathered, h]

theorem push_gathered (ds : List Declaration) (d : Declaration) :
    (gathered d.scope ds).push d = gathered d.scope (ds ++ [d]) := by
  cases hkind : d.kind <;> simp [push, gathered, hkind]

-- A namespace that no declaration uses has none.
theorem gathered_of_not_mem (h : name ∉ ds.map Declaration.scope) :
    gathered name ds = { name := name } := by
  have hfilter (kind : DeclarationKind) : (ds.filter fun d => d.scope = name ∧ d.kind = kind) = [] := by
    rw [List.filter_eq_nil_iff]
    intro d hd hname
    have hscope : d.scope = name ∧ d.kind = kind := of_decide_eq_true hname
    exact h (hscope.1 ▸ List.mem_map_of_mem hd)
  rw [gathered, hfilter, hfilter, hfilter]

end Entry

namespace Registry

theorem push_grouped (ds : List Declaration) (d : Declaration) :
    (grouped ds).push d = grouped (ds ++ [d]) := by
  rw [push, grouped, grouped, List.map_append, List.map_singleton, eraseDups_concat]
  refine congrArg Registry.mk (Assoc.alter_map_keys (nodup_eraseDups _) ?_ ?_ ?_)
  · exact Entry.push_gathered ds d
  · intro hnew
    rw [List.mem_eraseDups] at hnew
    rw [← Entry.push_gathered, Entry.gathered_of_not_mem hnew]
    rfl
  · exact fun name hname => Entry.gathered_append_of_ne hname.symm

-- Declarations that are added one by one end up grouped.
theorem ofDeclarations_eq (ds : List Declaration) : ofDeclarations ds = grouped ds := by
  have hfold (done : List Declaration) : ds.foldl push (grouped done) = grouped (done ++ ds) := by
    induction ds generalizing done with
    | nil => rw [List.append_nil, List.foldl_nil]
    | cons d ds ih => rw [List.foldl_cons, push_grouped, ih, List.append_assoc, List.singleton_append]
  exact hfold []

end Registry

end Census
