import Census.Proofs.Registry.Settled
import Census.Proofs.Script.Span
import Census.Proofs.Skeleton.DocComment
import Census.Proofs.Skeleton.Parsing

namespace Census

open Grammar

section Thrown

-- The class that a tree of contents names as allocated.
def allocatedBy (t : Tree Content) : Option String :=
  if t.label.kind = .allocation then
    (t.children.head?.filter fun type => type.label.kind = .identifier).map fun type => type.label.image
  else none

-- The class of the object that a tree of contents throws.
def thrownBy (t : Tree Content) : Option String :=
  if t.label.kind = .throwStatement then t.children.head?.bind allocatedBy else none

theorem Node.label_said (node : Node) : node.said.label = node.label.content := Tree.label_map _ node

theorem Node.children_said (node : Node) : node.said.children = node.children.map Node.said :=
  Tree.children_map _ node

theorem allocatedBy_said (node : Node) : allocatedBy node.said = node.allocatedClass? := by
  rw [allocatedBy, node.label_said, node.children_said, List.head?_map, Option.filter_map, Option.map_map]
  simp only [Function.comp_def, Node.label_said]
  rfl

theorem thrownBy_said (node : Node) : thrownBy node.said = node.thrownClass? := by
  rw [thrownBy, node.label_said, node.children_said, List.head?_map, Option.bind_map]
  simp only [Function.comp_def, allocatedBy_said]
  rfl

theorem thrown_said (node : Node) :
    node.subtrees.filterMap Node.thrownClass? = node.said.subtrees.filterMap thrownBy := by
  rw [Node.said, Tree.subtrees_map, List.filterMap_map]
  exact congrArg (node.subtrees.filterMap ·) (funext fun below => (thrownBy_said below).symm)

end Thrown

namespace Skeleton

-- A token of a script is written from an atom: its text, and what its doc comment names.
structure SaysAtom (script : Script) (i : Nat) (a : Atom) : Prop where
  text : script.text i = a.text
  doc : (script.docOf i).map DocComment.throws = a.annotated.map (List.map QualifiedName.text)

-- The tokens from number `i` on are written from `atoms`.
def Says (script : Script) (i : Nat) (atoms : List Atom) : Prop :=
  ∀ k a, atoms[k]? = some a → SaysAtom script (i + k) a

namespace Says

variable {script : Script} {i : Nat} {a : Atom} {atoms more : List Atom}

theorem left (h : Says script i (atoms ++ more)) : Says script i atoms := by
  intro k a hk
  obtain ⟨hlt, -⟩ := List.getElem?_eq_some_iff.1 hk
  exact h k a (by rwa [List.getElem?_append_left hlt])

theorem right (h : Says script i (atoms ++ more)) : Says script (i + atoms.length) more := by
  intro k a hk
  rw [Nat.add_assoc]
  exact h _ a (by rwa [List.getElem?_append_right (Nat.le_add_right ..), Nat.add_sub_cancel_left])

theorem head (h : Says script i (a :: atoms)) : SaysAtom script i a := h 0 a rfl

theorem tail (h : Says script i (a :: atoms)) : Says script (i + 1) atoms :=
  right (show Says script i ([a] ++ atoms) from h)

theorem texts (h : Says script i atoms) :
    (List.range' i atoms.length).map script.text = atoms.map Atom.text := by
  induction atoms generalizing i with
  | nil => rfl
  | cons a atoms ih =>
      rw [List.length_cons, List.range'_succ, List.map_cons, List.map_cons, ih h.tail]
      rw [h.head.text]

theorem image_name {name : QualifiedName} (h : Says script i (nameAtoms name)) :
    script.image (.tokens i (i + 2 * name.tail.length)) = name.text := by
  have htexts := h.texts
  rw [length_nameAtoms] at htexts
  rw [Image.tokens, Script.image,
    show i + 2 * name.tail.length + 1 - i = 2 * name.tail.length + 1 by omega, htexts, name.join_texts]

end Says

section Numbered

variable {α γ : Type} {atoms : α → List Atom}

theorem numbered_const {β : Type} (g : α → β) (i : Nat) (items : List α) :
    numbered atoms (fun _ a => g a) i items = items.map g := by
  induction items generalizing i with
  | nil => rfl
  | cons a items ih => rw [numbered, ih, List.map_cons]

theorem flatten_numbered {β : Type} (f : Nat → α → β) (i : Nat) (items : List α) :
    (numbered atoms (fun i a => [f i a]) i items).flatten = numbered atoms f i items := by
  induction items generalizing i with
  | nil => rfl
  | cons a items ih => rw [numbered, List.flatten_cons, ih, numbered, List.singleton_append]

theorem forall_mem_numbered {β : Type} {f : Nat → α → β} {P : β → Prop} (hf : ∀ a i, P (f i a))
    (items : List α) (i : Nat) : ∀ b ∈ numbered atoms f i items, P b := by
  induction items generalizing i with
  | nil => exact nofun
  | cons a items ih =>
      rw [numbered]
      exact List.forall_mem_cons.2 ⟨hf a i, ih _⟩

-- What is read from the nodes of items, item by item.
theorem flatMap_said {script : Script} {f : Nat → α → Draft} {g : Node → List γ} {e : Nat → α → List γ}
    (hg : ∀ a i node, Says script i (atoms a) → node.said = script.shown (f i a) → g node = e i a)
    (items : List α) {i : Nat} {nodes : List Node}
    (hnodes : nodes.map Node.said = (numbered atoms f i items).map script.shown)
    (h : Says script i (items.flatMap atoms)) :
    nodes.flatMap g = (numbered atoms e i items).flatten := by
  induction items generalizing i nodes with
  | nil =>
      obtain rfl := List.map_eq_nil_iff.1 hnodes
      rfl
  | cons a items ih =>
      obtain ⟨node, rest, rfl, hnode, hrest⟩ := List.map_eq_cons_iff.1 hnodes
      rw [List.flatMap_cons] at h
      rw [List.flatMap_cons, hg a i node h.left hnode, ih hrest h.right, numbered, List.flatten_cons]

end Numbered

section Exceptions

variable {script : Script} {i : Nat} {node : Node}

theorem thrown_throwDraft {name : QualifiedName} (h : Says script i (throwAtoms name))
    (hnode : node.said = script.shown (throwDraft i name)) :
    node.subtrees.filterMap Node.thrownClass? = [name.text] := by
  have himage : script.image (.tokens (i + 1 + 1) (i + 1 + 1 + 2 * name.tail.length)) = name.text :=
    h.tail.tail.left.image_name
  rw [thrown_said, hnode, ← himage]
  rfl

theorem thrownBelow_body {thrown : List QualifiedName} (h : Says script i (bodyAtoms thrown))
    (hnode : node.said = script.shown (bodyDraft i thrown)) :
    Survey.thrownBelow node = thrown.map QualifiedName.text := by
  have hkind : node.kind = .block := Script.kind_of_said hnode
  have hchildren : node.children.flatMap (fun child => child.subtrees.filterMap Node.thrownClass?) =
      thrown.map QualifiedName.text := by
    have hsaid := flatMap_said (e := fun _ name => [name.text]) (fun _ _ _ => thrown_throwDraft) thrown
      (Script.children_of_said hnode) h.tail.left
    rw [hsaid, numbered_const, ← List.flatMap_def, List.map_eq_flatMap]
  have hbare (name : QualifiedName) : Survey.bare name.text = name.text := name.bare_text
  have hself : node.thrownClass? = none := by
    rw [Node.thrownClass?, hkind]
    rfl
  rw [Survey.thrownBelow, Node.descendants_eq]
  cases node with
  | mk label children =>
      rw [Tree.subtrees_mk, List.filterMap_cons_none hself, List.filterMap_flatMap, hchildren, List.map_map]
      exact List.map_congr_left fun name _ => hbare name

-- The doc comment of a routine is that of its first token.
theorem annotated_routine {s : Signature} {more : List Atom} {kind : NodeKind} {last : Nat}
    {parts : List Draft} (h : Says script i (s.headAtoms ++ more))
    (hnode : node.said = script.shown (routineDraft kind i last parts)) :
    (node.doc.map DocComment.throws).getD [] = s.exceptions.map QualifiedName.text := by
  have hdoc : (script.docOf i).map DocComment.throws = s.annotated.map (List.map QualifiedName.text) :=
    h.head.doc
  have hnodedoc : node.doc = script.docOf i := Script.doc_of_said hnode
  rw [hnodedoc, hdoc, Signature.exceptions]
  cases s.annotated <;> rfl

theorem exceptionsOf_procedure {kind : NodeKind} {p : Procedure} (h : Says script i p.atoms)
    (hnode : node.said = script.shown (p.draft kind i)) :
    Survey.exceptionsOf .heeded node = p.exceptions.map QualifiedName.text := by
  obtain ⟨body, rest, hchildren, hbody, hrest⟩ := List.map_eq_cons_iff.1 (Script.children_of_said hnode)
  have hkind : Node.kind body = .block := Script.kind_of_said hbody
  have hblock : node.firstChild? .block = some body := by
    rw [Node.firstChild?, hchildren, List.find?_cons_of_pos (by simp [hkind])]
  rw [Survey.exceptionsOf, annotated_routine h hnode, hblock, Option.map_some, Option.getD_some,
    thrownBelow_body h.right hbody, Procedure.exceptions, List.map_append]

theorem exceptionsOf_signature {s : Signature} (h : Says script i s.atoms)
    (hnode : node.said = script.shown (s.draft i)) :
    Survey.exceptionsOf .heeded node = s.exceptions.map QualifiedName.text := by
  have hchildren : node.children = [] := List.map_eq_nil_iff.1 (Script.children_of_said hnode)
  rw [Survey.exceptionsOf, annotated_routine h hnode, Node.firstChild?, hchildren]
  exact List.append_nil _

-- The exceptions of a class or an interface are those of its methods.
theorem classExceptions_type {α : Type} {atoms : α → List Atom} {f : Nat → α → Draft}
    {e : α → List QualifiedName} (hkind : ∀ a i, (f i a).label.kind = .method)
    (he : ∀ a i child, Says script i (atoms a) → child.said = script.shown (f i a) →
      Survey.exceptionsOf .heeded child = (e a).map QualifiedName.text) {methods : List α} {kind : NodeKind}
    {count : Nat} (h : Says script (i + 3) (methods.flatMap atoms))
    (hnode : node.said = script.shown (typeDraft kind i count (numbered atoms f (i + 3) methods))) :
    Survey.classExceptions .heeded node = (methods.flatMap e).map QualifiedName.text := by
  have hchildren := Script.children_of_said hnode
  have hmethods : Survey.methodsOf node = node.children := by
    refine List.filter_eq_self.2 fun child hchild => ?_
    have hmem : child.said ∈ (numbered atoms f (i + 3) methods).map script.shown :=
      hchildren ▸ List.mem_map_of_mem hchild
    obtain ⟨d, hd, hsaid⟩ := List.mem_map.1 hmem
    have hmethod : d.label.kind = .method :=
      forall_mem_numbered (P := fun d : Draft => d.label.kind = .method) hkind methods (i + 3) d hd
    rw [Script.kind_of_said hsaid.symm, hmethod]
    rfl
  rw [Survey.classExceptions, hmethods, flatMap_said he methods hchildren h, numbered_const,
    ← List.flatMap_def, List.map_flatMap]

end Exceptions

section Declarations

variable {script : Script} {i : Nat} {node : Node}

theorem last_item (item : Item) (i : Nat) : (item.draft i).last = i + (item.atoms.length - 1) := by
  cases item with
  | function p =>
      have hlast : ((Item.function p).draft i).last = i + 4 + 1 + (p.thrown.flatMap throwAtoms).length := rfl
      have hstop := stop_procedure p i
      simp only [bodyAtoms, List.length_cons, List.length_append, List.length_nil] at hstop
      rw [hlast, Item.atoms]
      omega
  | classType name methods =>
      have hstop := stop_typeAtoms .kwClass name (methods.flatMap Procedure.atoms) i
      simp only [Item.draft, Item.atoms, typeDraft, Draft.last]
      omega
  | interfaceType name methods =>
      have hstop := stop_typeAtoms .kwInterface name (methods.flatMap Signature.atoms) i
      simp only [Item.draft, Item.atoms, typeDraft, Draft.last]
      omega

-- The declaration that is made of the node of an item, given the exceptions that are found there.
theorem declaration_item {scope : QualifiedName} {item : Item} (h : Says script i item.atoms)
    (hnode : node.said = script.shown (item.draft i)) :
    Survey.declaration (some scope.text) item.kind node (item.exceptions.map QualifiedName.text) =
      item.declaration script.spanOf scope i := by
  obtain ⟨k, doc, more, hatoms⟩ :
      ∃ k doc more, item.atoms = .keyword k doc :: .identifier item.name :: more := by
    cases item <;> exact ⟨_, _, _, rfl⟩
  have hfirst : (item.draft i).first = i := by
    cases item <;> rfl
  have himage : (item.draft i).label.image = .tokens (i + 1) (i + 1) := by
    cases item <;> rfl
  have hname : node.image = item.name.text := by
    rw [hatoms] at h
    rw [Script.image_of_said hnode, himage, Script.image_token, h.tail.head.text]
    rfl
  have hspan : node.span = ⟨(script.spanOf i).start, (script.spanOf (i + (item.atoms.length - 1))).stop⟩ := by
    rw [Script.span_of_said hnode, hfirst, last_item]
  have hbare : Survey.bare item.name.text = item.name.text :=
    (QualifiedName.mk item.name []).bare_text
  rw [Survey.declaration, hname, hspan, hbare]
  rfl

theorem declarations_item {scope : QualifiedName} {item : Item} (h : Says script i item.atoms)
    (hnode : node.said = script.shown (item.draft i)) :
    Survey.declarations .heeded (some scope.text) node = [item.declaration script.spanOf scope i] := by
  rw [← declaration_item h hnode]
  cases node with
  | mk label children =>
      cases item with
      | function p =>
          have hlabel : label.content.kind = .functionDecl := Script.kind_of_said hnode
          rw [Survey.declarations, hlabel]
          exact congrArg (fun e => [Survey.declaration _ _ _ e]) (exceptionsOf_procedure h hnode)
      | classType name methods =>
          have hlabel : label.content.kind = .classDecl := Script.kind_of_said hnode
          rw [Survey.declarations, hlabel]
          exact congrArg (fun e => [Survey.declaration _ _ _ e])
            (classExceptions_type (fun _ _ => rfl) (fun _ _ _ => exceptionsOf_procedure) h.tail.tail.tail.left hnode)
      | interfaceType name methods =>
          have hlabel : label.content.kind = .interfaceDecl := Script.kind_of_said hnode
          rw [Survey.declarations, hlabel]
          exact congrArg (fun e => [Survey.declaration _ _ _ e])
            (classExceptions_type (fun _ _ => rfl) (fun _ _ _ => exceptionsOf_signature) h.tail.tail.tail.left hnode)

theorem topDeclarations_section {part : Section} (h : Says script i part.atoms)
    (hnode : node.said = script.shown (part.draft i)) :
    Survey.topDeclarations .heeded node = part.declarations script.spanOf i := by
  have hkind : node.kind = .namespaceDecl := Script.kind_of_said hnode
  have himage : node.image = part.scope.text :=
    (Script.image_of_said hnode).trans h.tail.left.image_name
  have hnonempty : part.scope.text.isEmpty = false := by
    obtain ⟨c, cs, htext, -⟩ := part.scope.begins
    rw [String.isEmpty_eq_false_iff]
    intro hempty
    rw [hempty] at htext
    cases htext
  have hitems : Says script (i + 1 + 2 * part.scope.tail.length + 2) (part.items.flatMap Item.atoms) := by
    have hbehind := h.tail.right.tail
    rwa [length_nameAtoms] at hbehind
  have hchildren := Script.children_of_said hnode
  rw [Survey.topDeclarations, if_pos hkind, Survey.namespaceName?, himage, hnonempty,
    Survey.declarationsAll_eq, if_neg Bool.false_ne_true,
    flatMap_said (fun _ _ _ => declarations_item) part.items hchildren hitems, flatten_numbered,
    Section.declarations, length_nameAtoms,
    show i + (2 * part.scope.tail.length + 1) + 2 = i + 1 + 2 * part.scope.tail.length + 2 by omega]

theorem surveyed_drafts {skeleton : Skeleton} (h : Says script 0 skeleton.atoms) :
    surveyed .heeded (script.root skeleton.drafts) = skeleton.declarations script.spanOf :=
  flatMap_said (fun _ _ _ => topDeclarations_section) skeleton.sections
    (Script.root_children script skeleton.drafts) h

end Declarations

end Skeleton

end Census
