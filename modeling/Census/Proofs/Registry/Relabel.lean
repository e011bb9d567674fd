import Census.Proofs.Registry.Settled
import Census.Proofs.Tree.Schema
import Mathlib.Data.List.Basic

namespace Census

-- A change of labels that a survey does not notice, except that spans are changed by `g`: kinds
-- and names stay, and so does what the doc comments name.
structure Label.Quiet (f : Label → Label) (g : Span → Span) : Prop where
  kind : ∀ label, (f label).content.kind = label.content.kind
  span : ∀ label, (f label).content.span = g label.content.span
  name : ∀ label, label.content.kind.isNamed = true →
    (f label).content.image = label.content.image
  throws : ∀ label, (f label).content.doc.map DocComment.throws =
    label.content.doc.map DocComment.throws
  package : ∀ label, (f label).content.doc.bind DocComment.package? =
    label.content.doc.bind DocComment.package?

def Declaration.mapSpan (g : Span → Span) (d : Declaration) : Declaration :=
  { d with span := g d.span }

def Entry.mapSpans (g : Span → Span) (entry : Entry) : Entry where
  name := entry.name
  classes := entry.classes.map (Declaration.mapSpan g)
  interfaces := entry.interfaces.map (Declaration.mapSpan g)
  functions := entry.functions.map (Declaration.mapSpan g)

def Registry.mapSpans (g : Span → Span) (registry : Registry) : Registry :=
  ⟨registry.entries.map fun named => (named.1, named.2.mapSpans g)⟩

namespace Label.Quiet

variable {f : Label → Label} {g : Span → Span} (h : Quiet f g) (node : Node)
  (mode : AnnotationMode) (around : Option String)

include h

theorem kind_map : Node.kind (node.map f) = node.kind := by
  rw [Node.kind, Tree.label_map, h.kind]
  rfl

theorem span_map : Node.span (node.map f) = g node.span := by
  rw [Node.span, Tree.label_map, h.span]
  rfl

theorem image_map (hnamed : node.kind.isNamed = true) : Node.image (node.map f) = node.image := by
  rw [Node.image, Tree.label_map, h.name _ hnamed]
  rfl

theorem firstChild?_map (kind : NodeKind) :
    Node.firstChild? (node.map f) kind = (node.firstChild? kind).map (Tree.map f) := by
  have hkind : ((fun child : Node => decide (child.kind = kind)) ∘ Tree.map f) =
      fun child : Node => decide (child.kind = kind) :=
    funext fun child => by simp [h.kind_map]
  rw [Node.firstChild?, Node.firstChild?, Tree.children_map, List.find?_map, hkind]

theorem allocatedClass?_map : Node.allocatedClass? (node.map f) = node.allocatedClass? := by
  unfold Node.allocatedClass?
  rw [h.kind_map, Tree.children_map]
  cases node.children with
  | nil => rfl
  | cons type rest =>
      by_cases htype : Node.kind type = .identifier
      · have himage := h.image_map type (by rw [htype]; rfl)
        simp [Option.filter, h.kind_map, htype, himage]
      · simp [Option.filter, h.kind_map, htype]

theorem thrownClass?_map : Node.thrownClass? (node.map f) = node.thrownClass? := by
  unfold Node.thrownClass?
  rw [h.kind_map, Tree.children_map]
  cases node.children with
  | nil => rfl
  | cons thrown rest => simp [h.allocatedClass?_map]

theorem thrownBelow_map : Survey.thrownBelow (node.map f) = Survey.thrownBelow node := by
  have hbelow : Node.descendants (node.map f) = node.descendants.map (Tree.map f) := by
    rw [Node.descendants_eq, Node.descendants_eq]
    exact Tree.subtrees_map f node
  simp [Survey.thrownBelow, hbelow, List.filterMap_map, h.thrownClass?_map]

theorem exceptionsOf_map : Survey.exceptionsOf mode (node.map f) = Survey.exceptionsOf mode node := by
  have hdoc : (Node.doc (node.map f)).map DocComment.throws = node.doc.map DocComment.throws := by
    rw [Node.doc, Tree.label_map, h.throws]
    rfl
  cases mode <;> simp [Survey.exceptionsOf, hdoc, h.firstChild?_map, Function.comp_def,
    h.thrownBelow_map]

theorem classExceptions_map :
    Survey.classExceptions mode (node.map f) = Survey.classExceptions mode node := by
  simp [Survey.classExceptions, Survey.methodsOf, Tree.children_map, List.filter_map,
    List.flatMap_map, Function.comp_def, h.kind_map, h.exceptionsOf_map]

-- A declaration takes its own span from its node, and nothing else that may have changed.
theorem declaration_map (hnamed : node.kind.isNamed = true) (kind : DeclarationKind)
    (exceptions : List String) : Survey.declaration around kind (node.map f) exceptions =
      (Survey.declaration around kind node exceptions).mapSpan g := by
  have hdoc : (Node.doc (node.map f)).bind DocComment.package? =
      node.doc.bind DocComment.package? := by
    rw [Node.doc, Tree.label_map, h.package]
    rfl
  simp [Survey.declaration, Survey.scopeOf, Declaration.mapSpan, h.image_map node hnamed, hdoc,
    h.span_map]

theorem declarations_map : Survey.declarations mode around (node.map f) =
    (Survey.declarations mode around node).map (Declaration.mapSpan g) := by
  induction node using Tree.inductionOn with
  | node label children ih =>
      have hbelow : Survey.declarationsAll mode around (children.map (Tree.map f)) =
          (Survey.declarationsAll mode around children).map (Declaration.mapSpan g) := by
        rw [Survey.declarationsAll_eq, Survey.declarationsAll_eq, List.flatMap_map, List.map_flatMap]
        exact List.flatMap_congr ih
      have hnamed (hkind : label.content.kind.isNamed = true) (kind : DeclarationKind)
          (exceptions : List String) :
          Survey.declaration around kind ⟨f label, children.map (Tree.map f)⟩ exceptions =
            (Survey.declaration around kind ⟨label, children⟩ exceptions).mapSpan g := by
        rw [← Tree.map_mk, h.declaration_map ⟨label, children⟩ around hkind]
      rw [Tree.map_mk, Survey.declarations, Survey.declarations, h.kind]
      split
      · rename_i hkind
        rw [hnamed (by rw [hkind]; rfl), ← Tree.map_mk, h.classExceptions_map]
        rfl
      · rename_i hkind
        rw [hnamed (by rw [hkind]; rfl), ← Tree.map_mk, h.classExceptions_map]
        rfl
      · rename_i hkind
        rw [hnamed (by rw [hkind]; rfl), ← Tree.map_mk, h.exceptionsOf_map]
        rfl
      · rfl
      · rfl
      · exact hbelow

theorem topDeclarations_map : Survey.topDeclarations mode (node.map f) =
    (Survey.topDeclarations mode node).map (Declaration.mapSpan g) := by
  unfold Survey.topDeclarations
  rw [h.kind_map]
  split
  · rename_i hkind
    rw [Tree.children_map, Survey.declarationsAll_eq, Survey.declarationsAll_eq, List.flatMap_map,
      List.map_flatMap, Survey.namespaceName?, h.image_map node (by rw [hkind]; rfl)]
    exact List.flatMap_congr fun child _ => h.declarations_map child mode _
  · exact h.declarations_map node mode none

end Label.Quiet

variable (g : Span → Span)

theorem Entry.push_mapSpan (entry : Entry) (d : Declaration) :
    (entry.mapSpans g).push (d.mapSpan g) = (entry.push d).mapSpans g := by
  have hkind : (d.mapSpan g).kind = d.kind := rfl
  unfold push
  rw [hkind]
  cases d.kind <;> simp [mapSpans]

namespace Registry

theorem push_mapSpan (registry : Registry) (d : Declaration) :
    (registry.mapSpans g).push (d.mapSpan g) = (registry.push d).mapSpans g := by
  refine congrArg Registry.mk (Assoc.map_alter fun old => ?_).symm
  cases old with
  | none => exact (Entry.push_mapSpan g { name := d.scope } d).symm
  | some entry => exact (Entry.push_mapSpan g entry d).symm

theorem ofDeclarations_mapSpan (ds : List Declaration) :
    ofDeclarations (ds.map (Declaration.mapSpan g)) = (ofDeclarations ds).mapSpans g := by
  have hfold : ∀ registry : Registry,
      (ds.map (Declaration.mapSpan g)).foldl push (registry.mapSpans g) =
        (ds.foldl push registry).mapSpans g := by
    induction ds with
    | nil => exact fun _ => rfl
    | cons d ds ih =>
        intro registry
        rw [List.map_cons, List.foldl_cons, push_mapSpan, ih, List.foldl_cons]
  exact hfold empty

theorem mapSpans_id (registry : Registry) : registry.mapSpans (fun span => span) = registry := by
  have hdeclaration : Declaration.mapSpan (fun span => span) = id := rfl
  have hentry (entry : Entry) : entry.mapSpans (fun span => span) = entry := by
    simp [Entry.mapSpans, hdeclaration]
  simp [mapSpans, hentry]

end Registry

-- Such a change of labels passes through the survey of a tree.
theorem survey_map {f : Label → Label} {g : Span → Span} (h : Label.Quiet f g)
    (mode : AnnotationMode) (root : Node) :
    survey mode (root.map f) = (survey mode root).mapSpans g := by
  have hsurveyed : surveyed mode (root.map f) =
      (surveyed mode root).map (Declaration.mapSpan g) := by
    rw [surveyed, surveyed, Tree.children_map, List.flatMap_map, List.map_flatMap]
    exact List.flatMap_congr fun child _ => h.topDeclarations_map child mode
  rw [survey, survey, hsurveyed, Registry.ofDeclarations_mapSpan]

end Census
