import Census.Proofs.Assoc
import Census.Proofs.Tree.Subtrees
import Census.Registry.Survey

namespace Census

-- No exception is named twice.
def Declaration.Settled (d : Declaration) : Prop := d.exceptions.Nodup

def Entry.Settled (entry : Entry) : Prop := ∀ kind, ∀ d ∈ entry.ofKind kind, d.Settled

-- No namespace and no exception is named twice.
structure Registry.Settled (registry : Registry) : Prop where
  names : registry.names.Nodup
  entries : ∀ named ∈ registry.entries, named.2.Settled

namespace Entry

theorem settled_push {entry : Entry} {d : Declaration} (h : entry.Settled) (hd : d.Settled) :
    (entry.push d).Settled := by
  intro kind other hother
  rw [ofKind_push] at hother
  by_cases hkind : d.kind = kind
  · rw [if_pos hkind, List.mem_append, List.mem_singleton] at hother
    rcases hother with hother | rfl
    · exact h kind other hother
    · exact hd
  · rw [if_neg hkind] at hother
    exact h kind other hother

theorem settled_new (name : String) : ({ name := name } : Entry).Settled := by
  intro kind d hd
  cases kind <;> cases hd

end Entry

namespace Registry

theorem settled_empty : empty.Settled := ⟨List.nodup_nil, nofun⟩

theorem settled_push {registry : Registry} {d : Declaration} (h : registry.Settled)
    (hd : d.Settled) : (registry.push d).Settled := by
  refine ⟨Assoc.nodup_alter h.names, fun named hnamed => ?_⟩
  rcases Assoc.mem_alter hnamed with hold | rfl | ⟨entry, hentry, rfl⟩
  · exact h.entries named hold
  · exact Entry.settled_push (Entry.settled_new d.scope) hd
  · exact Entry.settled_push (h.entries _ hentry) hd

theorem settled_ofDeclarations {ds : List Declaration} (h : ∀ d ∈ ds, d.Settled) :
    (ofDeclarations ds).Settled := by
  have hfold : ∀ registry : Registry, registry.Settled → (ds.foldl push registry).Settled := by
    induction ds with
    | nil => exact fun _ hregistry => hregistry
    | cons d ds ih =>
        intro registry hregistry
        have hd := h d List.mem_cons_self
        exact ih (fun d hd => h d (List.mem_cons_of_mem _ hd)) _ (settled_push hregistry hd)
  exact hfold empty settled_empty

end Registry

namespace Survey

variable {mode : AnnotationMode} {around : Option String}

theorem settled_declaration (kind : DeclarationKind) (node : Node) (exceptions : List String) :
    (declaration around kind node exceptions).Settled := nodup_eraseDups exceptions

theorem declarationsAll_eq (nodes : List Node) :
    declarationsAll mode around nodes = nodes.flatMap (declarations mode around) := by
  induction nodes with
  | nil => rfl
  | cons node nodes ih => rw [declarationsAll, ih, List.flatMap_cons]

theorem settled_declarations (node : Node) : ∀ d ∈ declarations mode around node, d.Settled := by
  induction node using Tree.inductionOn with
  | node label children ih =>
      intro d hd
      rw [declarations] at hd
      split at hd
      · obtain rfl := List.mem_singleton.1 hd
        exact settled_declaration ..
      · obtain rfl := List.mem_singleton.1 hd
        exact settled_declaration ..
      · obtain rfl := List.mem_singleton.1 hd
        exact settled_declaration ..
      · cases hd
      · cases hd
      · rw [declarationsAll_eq, List.mem_flatMap] at hd
        obtain ⟨child, hchild, hd⟩ := hd
        exact ih child hchild d hd

end Survey

theorem survey_settled (mode : AnnotationMode) (root : Node) : (survey mode root).Settled := by
  apply Registry.settled_ofDeclarations
  intro d hd
  obtain ⟨child, -, hd⟩ := List.mem_flatMap.1 hd
  rw [Survey.topDeclarations] at hd
  by_cases hkind : Node.kind child = .namespaceDecl
  · rw [if_pos hkind, Survey.declarationsAll_eq, List.mem_flatMap] at hd
    obtain ⟨below, -, hd⟩ := hd
    exact Survey.settled_declarations below d hd
  · rw [if_neg hkind] at hd
    exact Survey.settled_declarations child d hd

end Census
