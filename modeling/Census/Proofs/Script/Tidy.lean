import Census.Proofs.Script.Registered

namespace Census

open Grammar Text

-- The names in what is registered for a spot. They are tidy, and none is empty unless the
-- annotation it is taken from has nothing but separators in its place.
structure Spot.Names (mode : AnnotationMode) (s : Spot Label) (d : Declaration) : Prop where
  scope : Tidy d.scope
  exceptions : ∀ name ∈ d.exceptions, Tidy name
  unnamed : d.scope = "" ↔
    s.namespace? = none ∧ ∃ doc ∈ Node.doc s.tree, DocComment.HollowPackage doc
  hollow : "" ∈ d.exceptions ↔ mode = .heeded ∧
    ∃ routine ∈ Node.routines s.tree, ∃ doc ∈ routine.doc, DocComment.HollowThrows doc

namespace Routine

theorem mem_annotated {routine : Routine} {name : String} :
    name ∈ routine.annotated ↔ ∃ doc ∈ routine.doc, name ∈ DocComment.throws doc := by
  rw [annotated]
  cases routine.doc <;> simp

end Routine

namespace Script

section Parsed

variable {source : String} {limit : Nat} {root : Node} (h : (ofSource source).parse limit = .ok root)
include h

theorem tidy_of_namespaceName? {node : Node} (hnode : node ∈ root.subtrees)
    (hkind : node.kind = .namespaceDecl) {name : String}
    (hname : Survey.namespaceName? node = some name) : Tidy name ∧ name ≠ "" := by
  obtain ⟨image, himage, hwordy⟩ := wordy_of_parse h node hnode (by rw [hkind]; rfl)
  rw [hkind] at hwordy
  unfold Survey.namespaceName? at hname
  split at hname
  · cases hname
  · rename_i hne
    obtain rfl := Option.some.inj hname
    refine ⟨?_, by simpa using hne⟩
    rw [himage]
    exact ⟨front_of_wordy hwordy, solid_of_wordy hwordy⟩

-- The class that is thrown was written as a name.
theorem tidy_of_thrownClass? {node : Node} (hnode : node ∈ root.subtrees) {name : String}
    (hname : node.thrownClass? = some name) : Tidy (Survey.bare name) ∧ Survey.bare name ≠ "" := by
  rw [Node.thrownClass?] at hname
  split at hname
  · obtain ⟨thrown, hthrown, hname⟩ := Option.bind_eq_some_iff.1 hname
    rw [Node.allocatedClass?] at hname
    split at hname
    · obtain ⟨type, htype, rfl⟩ := Option.map_eq_some_iff.1 hname
      obtain ⟨htype, hkind⟩ := Option.filter_eq_some_iff.1 htype
      have hkind : Node.kind type = .identifier := of_decide_eq_true hkind
      have hmem : type ∈ root.subtrees := Tree.mem_subtrees_of_child (List.mem_of_mem_head? htype)
        (Tree.mem_subtrees_of_child (List.mem_of_mem_head? hthrown) hnode)
      obtain ⟨image, himage, hwordy⟩ := wordy_of_parse h type hmem (by rw [hkind]; rfl)
      rw [hkind] at hwordy
      rw [himage, Survey.bare]
      exact ⟨DocComment.tidy_bare (solid_of_wordy hwordy),
        fun hempty => not_hollow_of_wordy hwordy (DocComment.bare_eq_empty.1 hempty)⟩
    · cases hname
  · cases hname

theorem tidy_of_thrown {node : Node} (hnode : node ∈ root.subtrees) {routine : Routine}
    (hroutine : routine ∈ node.routines) :
    ∀ name ∈ routine.thrown, Tidy name ∧ name ≠ "" := by
  intro name hname
  have hbody : ∀ body, routine.body = some body → body ∈ root.subtrees := by
    have hchild {parent : Node} (hparent : parent ∈ root.subtrees) :
        ∀ body, (Routine.ofNode parent).body = some body → body ∈ root.subtrees := fun body hbody =>
      Tree.mem_subtrees_of_child (List.mem_of_find?_eq_some hbody) hparent
    rw [Node.routines] at hroutine
    split at hroutine
    · obtain rfl := List.mem_singleton.1 hroutine
      exact hchild hnode
    · obtain ⟨method, hmethod, hroutine⟩ := List.mem_filterMap.1 hroutine
      rw [Routine.method?] at hroutine
      split at hroutine
      · obtain rfl := Option.some.inj hroutine
        exact hchild (Tree.mem_subtrees_of_child hmethod hnode)
      · cases hroutine
  rw [Routine.thrown] at hname
  cases hb : routine.body with
  | none =>
      rw [hb] at hname
      cases hname
  | some body =>
      rw [hb] at hname
      obtain ⟨written, hwritten, rfl⟩ := List.mem_map.1 hname
      obtain ⟨below, hbelow, hthrown⟩ := List.mem_filterMap.1 hwritten
      exact tidy_of_thrownClass? h (Tree.mem_subtrees_trans hbelow (hbody body hb)) hthrown

theorem tidy_scope {s : Spot Label} (hs : s ∈ root.spots []) {mode : AnnotationMode}
    {kind : DeclarationKind} : Tidy (s.record mode kind).scope ∧ ((s.record mode kind).scope = "" ↔
      s.namespace? = none ∧ ∃ doc ∈ Node.doc s.tree, DocComment.HollowPackage doc) := by
  have hscope : (s.record mode kind).scope =
      (s.namespace?.or ((Node.doc s.tree).bind DocComment.package?)).getD defaultNamespace := rfl
  rw [hscope]
  cases hnamespace : s.namespace? with
  | some name =>
      obtain ⟨node, hfound, hname⟩ := Option.bind_eq_some_iff.1 hnamespace
      have hnode : node ∈ root.subtrees :=
        (Tree.mem_above hs node (List.mem_of_find?_eq_some hfound)).resolve_right List.not_mem_nil
      have hkind := List.find?_some hfound
      obtain ⟨htidy, hne⟩ := tidy_of_namespaceName? h hnode (of_decide_eq_true hkind) hname
      exact ⟨htidy, fun hempty => absurd hempty hne, nofun⟩
  | none =>
      have hsolid : (defaultNamespace.toList.all fun c => !Text.isBlank c) = true := by decide
      have hdefault : Tidy defaultNamespace :=
        ⟨by decide, fun c hc => by simpa using List.all_eq_true.1 hsolid c hc⟩
      cases hdoc : Node.doc s.tree with
      | none => exact ⟨hdefault, nofun, by simp⟩
      | some doc =>
          simp only [Option.none_or, Option.bind_some, Option.mem_def, Option.some.injEq, true_and,
            exists_eq_left', ← DocComment.package?_eq_empty]
          cases hpackage : DocComment.package? doc with
          | none => exact ⟨hdefault, nofun, nofun⟩
          | some package =>
              exact ⟨DocComment.tidy_of_package? hpackage, congrArg some, Option.some.inj⟩

theorem names_of_registered {mode : AnnotationMode} {s : Spot Label} (hs : s ∈ root.spots [])
    {d : Declaration} (hd : s.registered? mode = some d) : s.Names mode d := by
  obtain ⟨kind, -, rfl⟩ := Option.map_eq_some_iff.1 hd
  obtain ⟨htidy, hunnamed⟩ := tidy_scope h hs
  have hthrown (routine : Routine) (hroutine : routine ∈ Node.routines s.tree) :=
    tidy_of_thrown h (Tree.mem_subtrees_of_spot hs) hroutine
  have hmem {name : String} : name ∈ (s.record mode kind).exceptions ↔
      ∃ routine ∈ Node.routines s.tree, name ∈ routine.mentioned mode :=
    List.mem_eraseDups.trans List.mem_flatMap
  refine ⟨htidy, fun name hname => ?_, hunnamed, hmem.trans ?_⟩
  · obtain ⟨routine, hroutine, hname⟩ := hmem.1 hname
    cases mode with
    | heeded =>
        rcases List.mem_append.1 hname with hname | hname
        · obtain ⟨doc, -, hname⟩ := Routine.mem_annotated.1 hname
          exact DocComment.tidy_of_mem_throws hname
        · exact (hthrown routine hroutine name hname).1
    | ignored => exact (hthrown routine hroutine name hname).1
  · constructor
    · rintro ⟨routine, hroutine, hempty⟩
      cases mode with
      | heeded =>
          rcases List.mem_append.1 hempty with hempty | hempty
          · obtain ⟨doc, hdoc, hempty⟩ := Routine.mem_annotated.1 hempty
            exact ⟨rfl, routine, hroutine, doc, hdoc, DocComment.empty_mem_throws.1 hempty⟩
          · exact absurd rfl (hthrown routine hroutine "" hempty).2
      | ignored => exact absurd rfl (hthrown routine hroutine "" hempty).2
    · rintro ⟨rfl, routine, hroutine, doc, hdoc, hhollow⟩
      exact ⟨routine, hroutine, List.mem_append_left _
        (Routine.mem_annotated.2 ⟨doc, hdoc, DocComment.empty_mem_throws.2 hhollow⟩)⟩

end Parsed

end Script

-- Namespaces and exceptions have tidy names, and those that the source names or throws are not
-- empty. A name can only be empty where an annotation consists of separators, and there it is.
theorem parse_tidy {source : String} {limit : Nat} {root : Node}
    (h : parse source limit = .ok root) (mode : AnnotationMode) :
    ∀ entry ∈ (survey mode root).toList, Tidy entry.name ∧ entry.declarations ≠ [] ∧
      ∀ d ∈ entry.declarations, d.scope = entry.name ∧
        ∃ s ∈ root.spots [], s.registered? mode = some d ∧ s.Names mode d := by
  intro entry hentry
  rw [survey, Registry.ofDeclarations_eq, Registry.toList, Registry.grouped, List.map_map] at hentry
  obtain ⟨name, hname, rfl⟩ := List.mem_map.1 hentry
  have hnamed : ∀ d ∈ (Entry.gathered name (surveyed mode root)).declarations, d.scope = name ∧
      ∃ s ∈ root.spots [], s.registered? mode = some d ∧ s.Names mode d := by
    intro d hd
    obtain ⟨kind, hd⟩ := (Entry.mem_declarations _).1 hd
    rw [Entry.ofKind_gathered, Script.surveyed_eq h, List.mem_filter] at hd
    obtain ⟨s, hs, hregistered⟩ := List.mem_filterMap.1 hd.1
    exact ⟨(of_decide_eq_true hd.2).1, s, hs, hregistered, Script.names_of_registered h hs hregistered⟩
  obtain ⟨d, hd⟩ := Entry.exists_mem_gathered (List.mem_eraseDups.1 hname)
  obtain ⟨hscope, s, -, -, hnames⟩ := hnamed d hd
  exact ⟨hscope ▸ hnames.scope, List.ne_nil_of_mem hd, hnamed⟩

-- A class whose doc comment names an exception and a package.
def annotatedClass : String :=
  "<?php /** @package \\P */ class A \x7b /** @throws \\E|F */ function f() \x7b\x7d \x7d"

theorem parse_tidy_class : ∃ root entry, parse annotatedClass 256 = .ok root ∧
    entry ∈ (survey .heeded root).toList ∧ entry.name = "P" ∧
    ∀ d ∈ entry.declarations, d.scope = "P" ∧ ∀ name ∈ d.exceptions, Tidy name := by
  have hnames : (parse annotatedClass 256).toOption.map (fun root =>
      (survey .heeded root).toList.map Entry.name) = some ["P"] := by
    decide +kernel
  cases h : parse annotatedClass 256 with
  | error e => simp [h, Except.toOption] at hnames
  | ok root =>
      obtain ⟨entry, hentry, hname⟩ : ∃ entry ∈ (survey .heeded root).toList, entry.name = "P" := by
        refine List.mem_map.1 (?_ : "P" ∈ (survey .heeded root).toList.map Entry.name)
        simp only [h, Except.toOption, Option.map_some, Option.some.injEq] at hnames
        simp [hnames]
      obtain ⟨-, -, hall⟩ := parse_tidy h .heeded entry hentry
      refine ⟨root, entry, rfl, hentry, hname, fun d hd => ?_⟩
      obtain ⟨hscope, s, -, -, hs⟩ := hall d hd
      exact ⟨hscope.trans hname, hs.exceptions⟩

-- Separators alone are taken for a package and for an exception, which then have no names.
theorem hollow_names : (parse "<?php /** @package \\ */ class A \x7b /** @throws A|\\ */ function f() \x7b\x7d \x7d"
    256).toOption.map (fun root => (surveyed .heeded root).map fun d => (d.name, d.scope, d.exceptions)) =
      some [("A", "", ["A", ""])] := by
  decide +kernel

end Census
