import Census.Proofs.Grammar.Passage
import Census.Proofs.Grammar.Steps
import Census.Proofs.Skeleton.Basic

namespace Census

namespace Skeleton

open Grammar

-- How the grammar sees a token.
def Atom.terminal (a : Atom) : Terminal :=
  ⟨a.kind, Script.namesCast { kind := a.kind, text := a.text, start := 0, stop := 0, span := default }⟩

-- The input where `atoms` are left, the first of them with number `i`.
def input (i : Nat) (atoms : List Atom) : Input := ⟨i, atoms.map Atom.terminal⟩

theorem input_length (i : Nat) (atoms : List Atom) : (input i atoms).rest.length = atoms.length :=
  List.length_map _

section Drafts

def nameDraft (i : Nat) (name : QualifiedName) : Draft :=
  Name.node .identifier (.between i none i (i + 2 * name.tail.length))

-- A new object of a class, made without arguments.
def allocationDraft (i : Nat) (name : QualifiedName) : Draft :=
  let opening := i + 1 + 2 * name.tail.length + 1
  ⟨{ kind := .allocation, first := i, last := opening + 1 },
    [nameDraft (i + 1) name, ⟨{ kind := .arguments, first := opening, last := opening + 1 }, []⟩]⟩

def throwDraft (i : Nat) (name : QualifiedName) : Draft :=
  ⟨{ kind := .throwStatement, first := i, last := (allocationDraft (i + 1) name).last + 1 },
    [allocationDraft (i + 1) name]⟩

def bodyDraft (i : Nat) (thrown : List QualifiedName) : Draft :=
  ⟨{ kind := .block, first := i, last := i + 1 + (thrown.flatMap throwAtoms).length },
    numbered throwAtoms throwDraft (i + 1) thrown⟩

-- A function or a method with the parts `parts` behind its parameters.
def routineDraft (kind : NodeKind) (i last : Nat) (parts : List Draft) : Draft :=
  ⟨{ kind, first := i, last, image := .tokens (i + 1) (i + 1), doc := some i }, parts⟩

def Procedure.draft (kind : NodeKind) (i : Nat) (p : Procedure) : Draft :=
  routineDraft kind i (bodyDraft (i + 4) p.thrown).last [bodyDraft (i + 4) p.thrown]

def Signature.draft (i : Nat) (_ : Signature) : Draft := routineDraft .method i (i + 4) []

-- A class or an interface whose members begin with token `i + 3` and have `count` tokens.
def typeDraft (kind : NodeKind) (i count : Nat) (members : List Draft) : Draft :=
  ⟨{ kind, first := i, last := i + 3 + count, image := .tokens (i + 1) (i + 1), doc := some i }, members⟩

def Item.draft (i : Nat) : Item → Draft
  | .function p => p.draft .functionDecl i
  | .classType _ methods => typeDraft .classDecl i (methods.flatMap Procedure.atoms).length
      (numbered Procedure.atoms (Procedure.draft .method) (i + 3) methods)
  | .interfaceType _ methods => typeDraft .interfaceDecl i (methods.flatMap Signature.atoms).length
      (numbered Signature.atoms Signature.draft (i + 3) methods)

def Section.draft (i : Nat) (part : Section) : Draft :=
  let last := i + 1 + 2 * part.scope.tail.length
  Passage.openNode i (.tokens (i + 1) last) (last + 1)
    (numbered Item.atoms Item.draft (last + 2) part.items)

def drafts (skeleton : Skeleton) : List Draft := numbered Section.atoms Section.draft 0 skeleton.sections

end Drafts

section Lengths

theorem length_nameAtoms (name : QualifiedName) :
    (nameAtoms name).length = 2 * name.tail.length + 1 := by
  simp [nameAtoms, List.map_const', Nat.mul_comm]

theorem length_throwAtoms (name : QualifiedName) :
    (throwAtoms name).length = 2 * name.tail.length + 6 := by
  simp [throwAtoms, length_nameAtoms]

end Lengths

open Grammar.Parser

variable {i : Nat} {rest : List Atom}

-- A loop that takes one item in each round makes its draft of each, where `ahead` is what a round
-- needs to know of the tokens behind it.
theorem winds_items {α β : Type} {atoms : α → List Atom} {f : Nat → α → Draft}
    {step : List Draft → Parser (Round (List Draft) β)} (ahead : List Atom → Prop)
    (hne : ∀ a, atoms a ≠ []) (hahead : ∀ a tail, ahead (atoms a ++ tail))
    (hstep : ∀ a found i tail, ahead tail → step found (input i (atoms a ++ tail)) =
      .ok (.again (found ++ [f i a]), input (i + (atoms a).length) tail))
    (items : List α) {found : List Draft} {b : β} {t : Input} (hrest : ahead rest)
    (hdone : step (found ++ numbered atoms f i items) (input (i + (items.flatMap atoms).length) rest) =
      .ok (.done b, t)) :
    Winds step found (input i (items.flatMap atoms ++ rest)) b t := by
  induction items generalizing found i with
  | nil =>
      rw [numbered, List.append_nil] at hdone
      exact .done hdone
  | cons a items ih =>
      rw [List.flatMap_cons, List.append_assoc]
      have hbehind : ahead (items.flatMap atoms ++ rest) := by
        cases items with
        | nil => exact hrest
        | cons a items =>
            rw [List.flatMap_cons, List.append_assoc]
            exact hahead a _
      refine .again (hstep a found i _ hbehind) ?_ (ih ?_)
      · have hpos := List.length_pos_iff.2 (hne a)
        simp only [input_length, List.length_append]
        omega
      · rw [numbered, List.flatMap_cons, List.length_append, ← Nat.add_assoc] at hdone
        rwa [List.append_assoc, List.singleton_append]

theorem winds_words {first bare : Nat} (tail : List Identifier) (last : Nat)
    (hrest : ∀ a ∈ rest.head?, a.kind ≠ .symbol .backslash) :
    Winds (nameRound first none bare) last
      (input (last + 1) (tail.flatMap (fun word => [.mark .backslash, .identifier word]) ++ rest))
      (.between first none bare (last + 2 * tail.length)) (input (last + 2 * tail.length + 1) rest) := by
  induction tail generalizing last with
  | nil =>
      refine .done ?_
      cases rest with
      | nil => rfl
      | cons a rest =>
          have ha : a.kind ≠ .symbol .backslash := hrest a rfl
          rw [nameRound, ahead_bind, ahead_bind]
          simp [input, Atom.terminal, ha]
          rfl
  | cons word tail ih =>
      simp only [List.flatMap_cons, List.cons_append, List.nil_append, List.length_cons]
      rw [show last + 2 * (tail.length + 1) = last + 2 + 2 * tail.length by omega]
      have hround (behind : List Atom) :
          nameRound first none bare last (input (last + 1) (.mark .backslash :: .identifier word :: behind)) =
            .ok (.again (last + 2), input (last + 2 + 1) behind) := rfl
      refine .again (hround _) ?_ (ih (last + 2))
      simp only [input_length, List.length_cons]
      omega

-- The words of a name, up to something other than a separator.
theorem qualifiedName_atoms (name : QualifiedName)
    (hrest : ∀ a ∈ rest.head?, a.kind ≠ .symbol .backslash) :
    qualifiedName (input i (nameAtoms name ++ rest)) =
      .ok (.between i none i (i + 2 * name.tail.length), input (i + 2 * name.tail.length + 1) rest) := by
  rw [qualifiedName_eq]
  refine (bind_of_ok (a := i) rfl).trans ((bind_of_ok (a := none) rfl).trans
    ((bind_of_ok (a := i) rfl).trans ?_))
  exact (winds_words name.tail i hrest).iterate

-- Items in braces, each of which begins with a keyword.
theorem through_items {α : Type} {atoms : α → List Atom} {f : Nat → α → Draft}
    {item : Parser (List Draft)} (hkeyword : ∀ a, ∃ k doc more, atoms a = .keyword k doc :: more)
    (hitem : ∀ a i tail, item (input i (atoms a ++ tail)) =
      .ok ([f i a], input (i + (atoms a).length) tail)) (items : List α) (i : Nat) (rest : List Atom) :
    through .rightBrace item (input i (items.flatMap atoms ++ .mark .rightBrace :: rest)) =
      .ok ((numbered atoms f i items, i + (items.flatMap atoms).length),
        input (i + (items.flatMap atoms).length + 1) rest) := by
  refine (winds_items (fun _ => True) ?_ (fun _ _ => trivial) ?_ items trivial rfl).iterate
  · intro a ha
    obtain ⟨k, doc, more, hatoms⟩ := hkeyword a
    rw [hatoms] at ha
    cases ha
  · intro a found i tail _
    have hdeclined : acceptSymbol .rightBrace (input i (atoms a ++ tail)) =
        .ok (none, input i (atoms a ++ tail)) := by
      obtain ⟨k, doc, more, hatoms⟩ := hkeyword a
      rw [hatoms]
      rfl
    have hhere : here (input i (atoms a ++ tail)) = .ok (i, input i (atoms a ++ tail)) := by
      obtain ⟨k, doc, more, hatoms⟩ := hkeyword a
      rw [hatoms]
      rfl
    exact (bind_of_ok hdeclined).trans ((bind_of_ok hhere).trans (bind_of_ok (hitem a i tail)))

section Throwing

variable (deeper : Deeper)

theorem allocation_atoms (name : QualifiedName) (i : Nat) (rest : List Atom) : allocation deeper
    (input i (.keyword .kwNew :: (nameAtoms name ++ .mark .leftParen :: .mark .rightParen :: rest))) =
      .ok (allocationDraft i name, input (i + 1 + 2 * name.tail.length + 3) rest) := by
  have hname : classReference
      (input (i + 1) (nameAtoms name ++ .mark .leftParen :: .mark .rightParen :: rest)) =
        .ok (nameDraft (i + 1) name,
          input (i + 1 + 2 * name.tail.length + 1) (.mark .leftParen :: .mark .rightParen :: rest)) :=
    bind_of_ok (qualifiedName_atoms name (by rintro a ⟨rfl⟩; exact nofun))
  exact (bind_of_ok (a := i) rfl).trans (bind_of_ok hname)

theorem expression_atoms (name : QualifiedName) (i : Nat) (rest : List Atom) : expression deeper
    (input i (.keyword .kwNew :: (nameAtoms name ++ .mark .leftParen :: .mark .rightParen ::
      .mark .semicolon :: rest))) =
        .ok (allocationDraft i name,
          input (i + 1 + 2 * name.tail.length + 3) (.mark .semicolon :: rest)) := by
  have hpostfixed : postfixed deeper (input i (.keyword .kwNew :: (nameAtoms name ++
      .mark .leftParen :: .mark .rightParen :: .mark .semicolon :: rest))) = .ok (allocationDraft i name,
        input (i + 1 + 2 * name.tail.length + 3) (.mark .semicolon :: rest)) :=
    (bind_of_ok (allocation_atoms deeper name i _)).trans (Winds.done rfl).iterate
  exact expression_of_unary deeper (.inl rfl) ((bind_of_ok hpostfixed).trans rfl)

end Throwing

section Bodies

variable (levels : Nat)

theorem statement_throw (name : QualifiedName) (i : Nat) (rest : List Atom) :
    Grammar.parse (levels + 2) .statement (input i (throwAtoms name ++ rest)) =
      .ok (some (throwDraft i name), input (i + (throwAtoms name).length) rest) := by
  have hthrow : throwStatement (Grammar.parse (levels + 1)) (input i (.keyword .kwThrow ::
      .keyword .kwNew ::
        (nameAtoms name ++ .mark .leftParen :: .mark .rightParen :: .mark .semicolon :: rest))) =
      .ok (throwDraft i name, input (i + 1 + 1 + 2 * name.tail.length + 4) rest) :=
    (bind_of_ok (a := i) rfl).trans
      ((bind_of_ok (expression_atoms (Grammar.parse levels) name (i + 1) rest)).trans rfl)
  rw [length_throwAtoms,
    show i + (2 * name.tail.length + 6) = i + 1 + 1 + 2 * name.tail.length + 4 by omega]
  simp only [throwAtoms, List.cons_append, List.append_assoc, List.nil_append]
  exact (bind_of_ok hthrow).trans rfl

theorem block_body (thrown : List QualifiedName) (i : Nat) (rest : List Atom) :
    block (Grammar.parse (levels + 2)) (input i (bodyAtoms thrown ++ rest)) =
      .ok (bodyDraft i thrown, input (i + (bodyAtoms thrown).length) rest) := by
  have hstatement (name : QualifiedName) (i : Nat) (tail : List Atom) :
      (Option.toList <$> Grammar.parse (levels + 2) .statement) (input i (throwAtoms name ++ tail)) =
        .ok ([throwDraft i name], input (i + (throwAtoms name).length) tail) :=
    bind_of_ok (statement_throw levels name i tail)
  have hstatements := through_items (fun _ => ⟨_, _, _, rfl⟩) hstatement thrown (i + 1) rest
  have hlength : i + (bodyAtoms thrown).length = i + 1 + (thrown.flatMap throwAtoms).length + 1 := by
    simp only [bodyAtoms, List.length_cons, List.length_append, List.length_nil]
    omega
  rw [hlength]
  simp only [bodyAtoms, List.cons_append, List.append_assoc, List.nil_append]
  exact (bind_of_ok (a := i) rfl).trans (bind_of_ok hstatements)

end Bodies

section Items

variable (levels : Nat)

theorem stop_procedure (p : Procedure) (i : Nat) :
    i + p.atoms.length = i + 4 + (bodyAtoms p.thrown).length := by
  simp only [Procedure.atoms, Signature.headAtoms, List.cons_append, List.length_cons, List.nil_append]
  omega

theorem function_procedure (p : Procedure) (i : Nat) (rest : List Atom) :
    function (Grammar.parse (levels + 2)) (input i (p.atoms ++ rest)) =
      .ok (p.draft .functionDecl i, input (i + p.atoms.length) rest) := by
  rw [stop_procedure]
  simp only [Procedure.atoms, Signature.headAtoms, List.cons_append, List.nil_append]
  refine (bind_of_ok (a := i) rfl).trans ((bind_of_ok (a := none) rfl).trans
    ((bind_of_ok (a := i + 1) rfl).trans ((bind_of_ok (a := []) rfl).trans
      ((bind_of_ok (a := none) rfl).trans ?_))))
  exact bind_of_ok (block_body levels p.thrown (i + 4) rest)

theorem method_procedure (p : Procedure) (i : Nat) (rest : List Atom) :
    method (Grammar.parse (levels + 2)) i .empty (input i (p.atoms ++ rest)) =
      .ok (p.draft .method i, input (i + p.atoms.length) rest) := by
  rw [stop_procedure]
  simp only [Procedure.atoms, Signature.headAtoms, List.cons_append, List.nil_append]
  refine (bind_of_ok (a := i) rfl).trans ((bind_of_ok (a := none) rfl).trans
    ((bind_of_ok (a := i + 1) rfl).trans ((bind_of_ok (a := []) rfl).trans
      ((bind_of_ok (a := none) rfl).trans ?_))))
  exact bind_of_ok (block_body levels p.thrown (i + 4) rest)

theorem member_procedure (p : Procedure) (i : Nat) (rest : List Atom) :
    Grammar.parse (levels + 3) .member (input i (p.atoms ++ rest)) =
      .ok ([p.draft .method i], input (i + p.atoms.length) rest) :=
  (bind_of_ok (method_procedure levels p i rest)).trans rfl

theorem member_signature (s : Signature) (i : Nat) (rest : List Atom) :
    Grammar.parse (levels + 1) .member (input i (s.atoms ++ rest)) =
      .ok ([s.draft i], input (i + s.atoms.length) rest) := rfl

theorem members_atoms {α : Type} {atoms : α → List Atom} {f : Nat → α → Draft}
    (hkeyword : ∀ a, ∃ k doc more, atoms a = .keyword k doc :: more)
    (hmember : ∀ a i tail, Grammar.parse levels .member (input i (atoms a ++ tail)) =
      .ok ([f i a], input (i + (atoms a).length) tail)) (items : List α) (i : Nat) (rest : List Atom) :
    members (Grammar.parse levels)
        (input i (.mark .leftBrace :: (items.flatMap atoms ++ .mark .rightBrace :: rest))) =
      .ok ((numbered atoms f (i + 1) items, i + 1 + (items.flatMap atoms).length),
        input (i + 1 + (items.flatMap atoms).length + 1) rest) :=
  (bind_of_ok (a := i) rfl).trans (through_items hkeyword hmember items (i + 1) rest)

theorem stop_typeAtoms (k : Keyword) (name : Identifier) (members : List Atom) (i : Nat) :
    i + (typeAtoms k name members).length = i + 2 + 1 + members.length + 1 := by
  simp only [typeAtoms, List.length_cons, List.length_append, List.length_nil]
  omega

theorem class_atoms (name : Identifier) (methods : List Procedure) (i : Nat) (rest : List Atom) :
    classDeclaration (Grammar.parse (levels + 3)) (input i ((Item.classType name methods).atoms ++ rest)) =
      .ok ((Item.classType name methods).draft i,
        input (i + (Item.classType name methods).atoms.length) rest) := by
  have hmembers := members_atoms (levels + 3) (fun _ => ⟨_, _, _, rfl⟩) (member_procedure levels)
    methods (i + 2) rest
  rw [Item.atoms, stop_typeAtoms]
  simp only [typeAtoms, List.cons_append, List.append_assoc, List.nil_append]
  refine (bind_of_ok (a := i) rfl).trans ((bind_of_ok (a := .empty) rfl).trans
    ((bind_of_ok (a := i) rfl).trans ((bind_of_ok (a := i + 1) rfl).trans
      ((bind_of_ok (a := none) rfl).trans ((bind_of_ok (a := []) rfl).trans ?_)))))
  exact bind_of_ok hmembers

theorem interface_atoms (name : Identifier) (methods : List Signature) (i : Nat) (rest : List Atom) :
    interfaceDeclaration (Grammar.parse (levels + 1))
        (input i ((Item.interfaceType name methods).atoms ++ rest)) =
      .ok ((Item.interfaceType name methods).draft i,
        input (i + (Item.interfaceType name methods).atoms.length) rest) := by
  have hmembers := members_atoms (levels + 1) (fun _ => ⟨_, _, _, rfl⟩) (member_signature levels)
    methods (i + 2) rest
  rw [Item.atoms, stop_typeAtoms]
  simp only [typeAtoms, List.cons_append, List.append_assoc, List.nil_append]
  refine (bind_of_ok (a := i) rfl).trans ((bind_of_ok (a := i + 1) rfl).trans
    ((bind_of_ok (a := []) rfl).trans ?_))
  exact bind_of_ok hmembers

-- A class nests deepest: its methods, their statements and the new objects are one level each.
theorem statement_item (item : Item) (i : Nat) (rest : List Atom) :
    Grammar.parse (levels + 4) .statement (input i (item.atoms ++ rest)) =
      .ok (some (item.draft i), input (i + item.atoms.length) rest) := by
  cases item with
  | function p => exact (bind_of_ok (function_procedure (levels + 1) p i rest)).trans rfl
  | classType name methods => exact (bind_of_ok (class_atoms levels name methods i rest)).trans rfl
  | interfaceType name methods =>
      exact (bind_of_ok (interface_atoms (levels + 2) name methods i rest)).trans rfl

theorem topStatement_item (item : Item) (i : Nat) (rest : List Atom) :
    topStatement (Grammar.parse (levels + 4)) (input i (item.atoms ++ rest)) =
      .ok ([item.draft i], input (i + item.atoms.length) rest) := by
  cases item <;> exact (bind_of_ok (statement_item levels _ i rest)).trans rfl

end Items

section Sections

variable (levels : Nat)

-- A namespace without braces ends in front of such tokens.
def EndsSection (rest : List Atom) : Prop :=
  rest = [] ∨ ∃ doc more, rest = .keyword .kwNamespace doc :: more

theorem openStatements_items (items : List Item) (i : Nat) {rest : List Atom} (hrest : EndsSection rest) :
    openStatements (Grammar.parse (levels + 4)) (input i (items.flatMap Item.atoms ++ rest)) =
      .ok (numbered Item.atoms Item.draft i items, input (i + (items.flatMap Item.atoms).length) rest) := by
  refine (winds_items (f := Item.draft) (fun _ => True) ?_ (fun _ _ => trivial) ?_ items trivial ?_).iterate
  · intro item
    cases item <;> exact nofun
  · intro item found i tail _
    have hround := bind_of_ok (β := Round (List Draft) (List Draft))
      (topStatement_item levels item i tail) (f := fun ds => pure (.again (found ++ ds)))
    cases item <;> exact hround
  · rcases hrest with rfl | ⟨doc, more, rfl⟩ <;> rfl

theorem namespaceDeclaration_section (part : Section) (i : Nat) {rest : List Atom}
    (hrest : EndsSection rest) :
    namespaceDeclaration (Grammar.parse (levels + 4)) (input i (part.atoms ++ rest)) =
      .ok (part.draft i, input (i + part.atoms.length) rest) := by
  have hname := qualifiedName_atoms (i := i + 1) part.scope
    (show ∀ a ∈ (Atom.mark .semicolon :: (part.items.flatMap Item.atoms ++ rest)).head?,
      a.kind ≠ .symbol .backslash by rintro a ⟨rfl⟩; exact nofun)
  have hitems := openStatements_items levels part.items (i + 1 + 2 * part.scope.tail.length + 2) hrest
  have hlength : i + part.atoms.length =
      i + 1 + 2 * part.scope.tail.length + 2 + (part.items.flatMap Item.atoms).length := by
    simp only [Section.atoms, List.length_cons, List.length_append, length_nameAtoms]
    omega
  rw [hlength]
  simp only [Section.atoms, List.cons_append, List.append_assoc]
  refine (bind_of_ok (a := i) rfl).trans ((bind_of_ok (bind_of_ok hname)).trans
    ((bind_of_ok (a := none) rfl).trans ((bind_of_ok rfl).trans ?_)))
  exact bind_of_ok hitems

-- Four levels are enough for any skeleton.
theorem parseFile_atoms (skeleton : Skeleton) :
    parseFile (levels + 4) (skeleton.atoms.map Atom.terminal) = .ok skeleton.drafts := by
  have hfile : file (Grammar.parse (levels + 4)) (input 0 (skeleton.atoms ++ [])) =
      .ok (skeleton.drafts, input (0 + skeleton.atoms.length) []) := by
    refine (winds_items (f := Section.draft) EndsSection ?_ ?_ ?_ skeleton.sections (.inl rfl) rfl).iterate
    · exact fun _ => nofun
    · exact fun _ _ => .inr ⟨_, _, rfl⟩
    · intro part found i tail htail
      exact bind_of_ok (namespaceDeclaration_section levels part i htail)
        (f := fun d => pure (Round.again (found ++ [d])))
  rw [List.append_nil, input] at hfile
  rw [parseFile, hfile]

end Sections

end Skeleton

end Census
