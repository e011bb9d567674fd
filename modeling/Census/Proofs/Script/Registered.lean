import Census.Proofs.Registry.Annotations
import Census.Proofs.Script.Image

namespace Census

open Grammar

-- The name of the namespace that a spot stands in, if that is a named one.
def Spot.namespace? (s : Spot Label) : Option String :=
  (s.above.find? fun node => Node.kind node = .namespaceDecl).bind Survey.namespaceName?

-- What is registered for a spot that is registered as a declaration of this kind.
def Spot.record (mode : AnnotationMode) (s : Spot Label) (kind : DeclarationKind) : Declaration where
  name := Node.image s.tree
  kind := kind
  scope := (s.namespace?.or ((Node.doc s.tree).bind DocComment.package?)).getD defaultNamespace
  exceptions := ((Node.routines s.tree).flatMap (Routine.mentioned mode)).eraseDups
  span := Node.span s.tree

def Spot.registered? (mode : AnnotationMode) (s : Spot Label) : Option Declaration :=
  s.declares?.map (s.record mode)

namespace Script

section Parsed

variable {source : String} {limit : Nat} {root : Node} (h : (ofSource source).parse limit = .ok root)
include h

-- Namespaces stand nowhere but directly below the root.
theorem kind_ne_namespace {child grandchild : Node} (hchild : child ∈ root.children)
    (hgrandchild : grandchild ∈ child.children) :
    ∀ node ∈ grandchild.subtrees, Node.kind node ≠ .namespaceDecl := by
  have hmem := Tree.mem_subtrees_of_child hchild root.self_mem_subtrees
  -- neither is a node below a child of the root a file, so nothing below it is a namespace
  have hall : ∀ node ∈ grandchild.subtrees, node ∈ root.subtrees ∧
      Node.kind node ≠ .sourceFile ∧ Node.kind node ≠ .namespaceDecl := by
    refine Tree.subtrees_induction ?_ fun parent hparent node hnode => ?_
    · obtain ⟨hfile, -⟩ := taken_of_parse h root root.self_mem_subtrees child hchild
      obtain ⟨hbelow, hnamespace⟩ := taken_of_parse h child hmem grandchild hgrandchild
      exact ⟨Tree.mem_subtrees_of_child hgrandchild hmem, hbelow, fun hkind => hfile (hnamespace hkind)⟩
    · obtain ⟨hbelow, hnamespace⟩ := taken_of_parse h parent hparent.1 node hnode
      exact ⟨Tree.mem_subtrees_of_child hnode hparent.1, hbelow,
        fun hkind => hparent.2.1 (hnamespace hkind)⟩
  exact fun node hnode => (hall node hnode).2.2

-- The namespace around a declaration is found above it, at the child of the root.
theorem namespace?_of_mem {child : Node} (hchild : child ∈ root.children) {s : Spot Label}
    (hs : s ∈ child.spots [root]) {kind : DeclarationKind} (hkind : s.declares? = some kind) :
    s.namespace? = Survey.aroundOf child := by
  have hroot : Node.kind root ≠ .namespaceDecl := by
    rw [kind_root h]
    nofun
  have hbelow {above : List Node} {grandchild : Node} (hgrandchild : grandchild ∈ child.children)
      (hs : s ∈ grandchild.spots above) : s.namespace? =
        (above.find? fun node => Node.kind node = .namespaceDecl).bind Survey.namespaceName? := by
    rw [Spot.namespace?, Tree.find?_above (fun node hnode => ?_) s hs]
    exact decide_eq_false (kind_ne_namespace h hchild hgrandchild node hnode)
  rw [Survey.aroundOf]
  cases child with
  | mk label children =>
      rw [Tree.spots_mk] at hs
      by_cases hnamespace : Node.kind ⟨label, children⟩ = .namespaceDecl
      · rw [if_pos hnamespace]
        rcases List.mem_cons.1 hs with rfl | hs
        · have hdeclares := Spot.kind_of_declares? hkind
          rw [hnamespace] at hdeclares
          cases hdeclares
        · obtain ⟨grandchild, hgrandchild, hs⟩ := List.mem_flatMap.1 hs
          rw [hbelow hgrandchild hs, List.find?_cons_of_pos (by simpa using hnamespace)]
          rfl
      · rw [if_neg hnamespace]
        rcases List.mem_cons.1 hs with rfl | hs
        · rw [Spot.namespace?, List.find?_cons_of_neg (by simpa using hroot)]
          rfl
        · obtain ⟨grandchild, hgrandchild, hs⟩ := List.mem_flatMap.1 hs
          rw [hbelow hgrandchild hs, List.find?_cons_of_neg (by simpa using hnamespace),
            List.find?_cons_of_neg (by simpa using hroot)]
          rfl

-- The name of a declaration has no separator in front that could be dropped.
theorem bare_image {node : Node} (hnode : node ∈ root.subtrees) {kind : DeclarationKind}
    (hkind : node.kind.declares? = some kind) : Survey.bare node.image = node.image := by
  have hnamed : node.kind.isNamed = true ∧ node.kind.refers = false := by
    cases hk : node.kind <;> first | exact ⟨rfl, rfl⟩ | (rw [hk] at hkind; cases hkind)
  obtain ⟨image, himage, hwordy⟩ := wordy_of_parse h node hnode hnamed.1
  rw [hnamed.2] at hwordy
  refine DocComment.bare_of_front ?_
  rw [himage]
  exact front_of_wordy hwordy

theorem surveyed_eq (mode : AnnotationMode) :
    surveyed mode root = (root.spots []).filterMap (Spot.registered? mode) := by
  obtain ⟨label, children⟩ := root
  have hroot : Node.kind ⟨label, children⟩ = .sourceFile := kind_root h
  have hself : (⟨⟨label, children⟩, []⟩ : Spot Label).registered? mode = none := by
    rw [Spot.registered?, Spot.declares?, hroot]
    rfl
  have hopen : ∀ p ∈ [(⟨label, children⟩ : Node)], (Node.kind p).hides = false := by
    rw [List.forall_mem_singleton, hroot]
    rfl
  rw [Tree.spots_mk, List.filterMap_cons, hself, List.filterMap_flatMap, surveyed]
  refine List.flatMap_congr fun child hchild => ?_
  rw [Survey.topDeclarations_eq, Survey.declarations_eq hopen]
  refine List.filterMap_congr fun s hs => ?_
  rw [Spot.registered?]
  cases hkind : s.declares? with
  | none => rfl
  | some kind =>
      have hnode : s.tree ∈ Tree.subtrees ⟨label, children⟩ :=
        Tree.mem_subtrees_trans (Tree.mem_subtrees_of_spot hs)
          (Tree.mem_subtrees_of_child hchild (Tree.self_mem_subtrees _))
      have hscope := namespace?_of_mem h hchild hs hkind
      have hname := bare_image h hnode (Spot.kind_of_declares? hkind)
      rw [Option.map_some, Option.map_some, Spot.record, Survey.record, Survey.declaration,
        Survey.scopeOf, hname, hscope]

end Parsed

end Script

end Census
