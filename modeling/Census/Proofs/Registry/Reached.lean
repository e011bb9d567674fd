import Census.Proofs.Registry.Grouped
import Census.Proofs.Registry.Settled
import Census.Proofs.Tree.Spots

namespace Census

namespace NodeKind

-- What a node is registered as, if it is registered at all.
def declares? : NodeKind → Option DeclarationKind
  | .classDecl => some .classType
  | .interfaceDecl => some .interfaceType
  | .functionDecl => some .function
  | _ => none

-- The nodes whose inside is not seen from outside.
def hides : NodeKind → Bool
  | .classDecl | .interfaceDecl | .functionDecl | .closure | .traitDecl => true
  | _ => false

end NodeKind

-- What a node is registered as in its place: nothing, if something around it hides it.
def Spot.declares? (s : Spot Label) : Option DeclarationKind :=
  if s.above.any fun node => (Node.kind node).hides then none else (Node.kind s.tree).declares?

theorem Spot.kind_of_declares? {s : Spot Label} {kind : DeclarationKind}
    (h : s.declares? = some kind) : (Node.kind s.tree).declares? = some kind := by
  rw [declares?] at h
  split at h
  · cases h
  · exact h

namespace Routine

-- The exceptions that the doc comment names.
def annotated (routine : Routine) : List String := (routine.doc.map DocComment.throws).getD []

-- The classes of the objects that are allocated and thrown anywhere in the body.
def thrown (routine : Routine) : List String :=
  routine.body.elim [] fun body => (body.subtrees.filterMap Node.thrownClass?).map Survey.bare

def mentioned (mode : AnnotationMode) (routine : Routine) : List String :=
  match mode with
  | .heeded => routine.annotated ++ routine.thrown
  | .ignored => routine.thrown

end Routine

-- The routines that mention the exceptions of a declaration: a function itself, or the methods
-- of a type.
def Node.routines (node : Node) : List Routine :=
  if node.kind = .functionDecl then [.ofNode node] else node.childrenOf Routine.method?

namespace Survey

variable {mode : AnnotationMode} {around : Option String}

-- What is registered for a node in the namespace `around` it.
def record (mode : AnnotationMode) (around : Option String) (kind : DeclarationKind) (node : Node) :
    Declaration :=
  declaration around kind node (node.routines.flatMap (Routine.mentioned mode))

theorem exceptionsOf_eq (mode : AnnotationMode) (node : Node) :
    exceptionsOf mode node = (Routine.ofNode node).mentioned mode := by
  have hthrown : ((node.firstChild? .block).map thrownBelow).getD [] = (Routine.ofNode node).thrown := by
    rw [Routine.thrown, Routine.ofNode]
    cases node.firstChild? .block with
    | none => rfl
    | some body => simp [thrownBelow, Node.descendants_eq]
  cases mode with
  | heeded => exact congrArg ((Routine.ofNode node).annotated ++ ·) hthrown
  | ignored => exact hthrown

theorem classExceptions_eq (mode : AnnotationMode) (node : Node) : classExceptions mode node =
    (node.childrenOf Routine.method?).flatMap (Routine.mentioned mode) := by
  have hmethods : node.childrenOf Routine.method? = (methodsOf node).map Routine.ofNode := by
    unfold Node.childrenOf methodsOf
    induction node.children with
    | nil => rfl
    | cons child children ih =>
        by_cases hkind : Node.kind child = .method <;> simp [Routine.method?, hkind, ih]
  rw [classExceptions, hmethods, List.flatMap_map]
  exact congrArg (List.flatMap · _) (funext (exceptionsOf_eq mode))

theorem declares?_of_hidden {above : List Node} {p node : Node} (hp : p ∈ above)
    (hides : p.kind.hides = true) : ∀ s ∈ node.spots above, s.declares? = none := by
  intro s hs
  obtain ⟨inner, hinner, -, -⟩ := Tree.spots_above hs
  rw [Spot.declares?, if_pos]
  rw [hinner, List.any_eq_true]
  exact ⟨p, List.mem_append_right inner hp, hides⟩

-- A survey registers the spots that declare something and are not hidden.
theorem declarations_eq {above : List Node} (hopen : ∀ p ∈ above, (Node.kind p).hides = false)
    (node : Node) : declarations mode around node = (node.spots above).filterMap fun s =>
      s.declares?.map fun kind => record mode around kind s.tree := by
  induction node using Tree.inductionOn generalizing above with
  | node label children ih =>
      have hself : (⟨⟨label, children⟩, above⟩ : Spot Label).declares? =
          label.content.kind.declares? := by
        rw [Spot.declares?, if_neg]
        · rfl
        · simpa using hopen
      have hidden (hides : label.content.kind.hides = true) :
          (children.flatMap (Tree.spots (⟨label, children⟩ :: above))).filterMap
            (fun s => s.declares?.map fun kind => record mode around kind s.tree) = [] := by
        rw [List.filterMap_eq_nil_iff]
        intro s hs
        obtain ⟨child, -, hs⟩ := List.mem_flatMap.1 hs
        rw [declares?_of_hidden (p := ⟨label, children⟩) List.mem_cons_self hides s hs]
        rfl
      rw [declarations, Tree.spots_mk, List.filterMap_cons, hself]
      split
      case h_1 hkind | h_2 hkind =>
        have hroutines : Node.routines ⟨label, children⟩ =
            Node.childrenOf ⟨label, children⟩ Routine.method? := by
          rw [Node.routines, if_neg]
          rw [Node.kind, hkind]
          decide
        rw [hidden (by rw [hkind]; rfl), hkind]
        simp only [NodeKind.declares?, Option.map_some, record, hroutines, classExceptions_eq]
      case h_3 hkind =>
        have hroutines : Node.routines ⟨label, children⟩ = [.ofNode ⟨label, children⟩] :=
          if_pos hkind
        rw [hidden (by rw [hkind]; rfl), hkind]
        simp only [NodeKind.declares?, Option.map_some, record, hroutines, exceptionsOf_eq,
          List.flatMap_singleton]
      case h_4 hkind | h_5 hkind =>
        rw [hidden (by rw [hkind]; rfl), hkind]
        rfl
      case h_6 =>
        rename_i hclass hinterface hfunction hclosure htrait
        have hnone : label.content.kind.declares? = none := by
          cases h : label.content.kind <;> first | rfl | contradiction
        have hshows : label.content.kind.hides = false := by
          cases h : label.content.kind <;> first | rfl | contradiction
        rw [hnone, declarationsAll_eq, List.filterMap_flatMap]
        exact List.flatMap_congr fun child hchild => ih child hchild
          (List.forall_mem_cons.2 ⟨hshows, hopen⟩)

end Survey

end Census
