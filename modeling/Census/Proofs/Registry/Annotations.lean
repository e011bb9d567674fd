import Census.Proofs.Registry.Reached
import Census.Script
import Mathlib.Data.List.Forall2

namespace Census

namespace Survey

-- The namespace around what lies at or below a child of a file's root.
def aroundOf (child : Node) : Option String :=
  if child.kind = .namespaceDecl then namespaceName? child else none

theorem topDeclarations_eq (mode : AnnotationMode) (child : Node) :
    topDeclarations mode child = declarations mode (aroundOf child) child := by
  rw [topDeclarations, aroundOf]
  by_cases hkind : child.kind = .namespaceDecl
  · obtain ⟨label, children⟩ := child
    have hlabel : label.content.kind = .namespaceDecl := hkind
    rw [if_pos hkind, if_pos hkind, declarations, hlabel]
  · rw [if_neg hkind, if_neg hkind]

-- A place where something is declared: all that a survey needs to know of it.
structure Site where
  around : Option String
  kind : DeclarationKind
  node : Node

def Site.record (mode : AnnotationMode) (site : Site) : Declaration :=
  Survey.record mode site.around site.kind site.node

-- The places below a root, whatever is done with annotations.
def sites (root : Node) : List Site :=
  root.children.flatMap fun child => (child.spots []).filterMap fun s =>
    s.declares?.map fun kind => ⟨aroundOf child, kind, s.tree⟩

theorem surveyed_sites (mode : AnnotationMode) (root : Node) :
    surveyed mode root = (sites root).map (Site.record mode) := by
  rw [surveyed, sites, List.map_flatMap]
  refine List.flatMap_congr fun child _ => ?_
  rw [topDeclarations_eq, declarations_eq (List.forall_mem_nil _), List.map_filterMap]
  simp only [Option.map_map]
  rfl

theorem mem_sites {root : Node} {site : Site} (h : site ∈ sites root) :
    site.node ∈ root.descendants ∧ site.node.kind.declares? = some site.kind := by
  obtain ⟨child, hchild, h⟩ := List.mem_flatMap.1 h
  obtain ⟨s, hs, h⟩ := List.mem_filterMap.1 h
  obtain ⟨kind, hkind, rfl⟩ := Option.map_eq_some_iff.1 h
  refine ⟨?_, Spot.kind_of_declares? hkind⟩
  rw [Node.descendants_eq]
  exact Tree.mem_subtrees_trans (Tree.mem_subtrees_of_spot hs)
    (Tree.mem_subtrees_of_child hchild root.self_mem_subtrees)

end Survey

namespace Routine

theorem mem_mentioned_heeded {routines : List Routine} {name : String} :
    name ∈ routines.flatMap (mentioned .heeded) ↔
      name ∈ routines.flatMap thrown ∨ name ∈ routines.flatMap annotated := by
  simp only [List.mem_flatMap, mentioned, List.mem_append]
  constructor
  · rintro ⟨routine, hroutine, hname | hname⟩
    · exact .inr ⟨routine, hroutine, hname⟩
    · exact .inl ⟨routine, hroutine, hname⟩
  · rintro (⟨routine, hroutine, hname⟩ | ⟨routine, hroutine, hname⟩)
    · exact ⟨routine, hroutine, .inr hname⟩
    · exact ⟨routine, hroutine, .inl hname⟩

end Routine

-- Two records of one node, where annotations were ignored and where they were heeded.
structure Declaration.Twins (root : Node) (ignoring heeding : Declaration) : Prop where
  name : ignoring.name = heeding.name
  kind : ignoring.kind = heeding.kind
  scope : ignoring.scope = heeding.scope
  span : ignoring.span = heeding.span
  node : ∃ node ∈ root.descendants, node.kind.declares? = some heeding.kind ∧
    heeding.name = Survey.bare node.image ∧ heeding.span = node.span ∧
    ignoring.exceptions = (node.routines.flatMap Routine.thrown).eraseDups ∧
    ∀ name, name ∈ heeding.exceptions ↔
      name ∈ node.routines.flatMap Routine.thrown ∨ name ∈ node.routines.flatMap Routine.annotated

theorem Survey.Site.twins {root : Node} {site : Site} (h : site ∈ sites root) :
    Declaration.Twins root (site.record .ignored) (site.record .heeded) := by
  obtain ⟨hnode, hkind⟩ := mem_sites h
  refine ⟨rfl, rfl, rfl, rfl, site.node, hnode, hkind, rfl, rfl, rfl, fun name => ?_⟩
  exact List.mem_eraseDups.trans Routine.mem_mentioned_heeded

-- Ignoring annotations changes nothing but exceptions: the namespaces stay, and in each of them
-- the records of each kind. Only what annotations name goes missing.
theorem survey_ignored (root : Node) :
    (survey .ignored root).names = (survey .heeded root).names ∧
      List.Forall₂ (fun ignoring heeding : Entry => ignoring.name = heeding.name ∧ ∀ kind,
        List.Forall₂ (Declaration.Twins root) (ignoring.ofKind kind) (heeding.ofKind kind))
      (survey .ignored root).toList (survey .heeded root).toList := by
  have hscopes : (surveyed .ignored root).map Declaration.scope =
      (surveyed .heeded root).map Declaration.scope := by
    rw [Survey.surveyed_sites, Survey.surveyed_sites, List.map_map, List.map_map]
    rfl
  -- the records of one kind in one namespace are those of the same places
  have hkinds (name : String) (kind : DeclarationKind) : List.Forall₂ (Declaration.Twins root)
      ((Entry.gathered name (surveyed .ignored root)).ofKind kind)
      ((Entry.gathered name (surveyed .heeded root)).ofKind kind) := by
    rw [Entry.ofKind_gathered, Entry.ofKind_gathered, Survey.surveyed_sites, Survey.surveyed_sites,
      List.filter_map, List.filter_map, List.forall₂_map_left_iff, List.forall₂_map_right_iff]
    refine List.forall₂_same.2 fun site hsite => Survey.Site.twins ?_
    exact (List.mem_filter.1 hsite).1
  rw [survey, survey, Registry.ofDeclarations_eq, Registry.ofDeclarations_eq]
  refine ⟨?_, ?_⟩
  · simp only [Registry.names, Registry.grouped, List.map_map, Function.comp_def, hscopes]
  · simp only [Registry.toList, Registry.grouped, List.map_map, Function.comp_def, hscopes,
      List.forall₂_map_left_iff, List.forall₂_map_right_iff]
    exact List.forall₂_same.2 fun name _ => ⟨rfl, hkinds name⟩

-- Two functions whose exceptions depend on annotations, and one of them in a package.
def annotatedFunctions : String := String.join [
  "<?php /** @package P\n * @throws A */ function f() \x7b throw new E; \x7d ",
  "/** @throws B */ function g() \x7b\x7d"]

theorem survey_ignored_annotated : ∃ root, parse annotatedFunctions 256 = .ok root ∧
    (survey .ignored root).names = ["P", "+global"] ∧
    (surveyed .ignored root).map (fun d => (d.name, d.exceptions)) = [("f", ["E"]), ("g", [])] ∧
    (surveyed .heeded root).map (fun d => (d.name, d.exceptions)) = [("f", ["A", "E"]), ("g", ["B"])] := by
  have hsurveyed : (parse annotatedFunctions 256).toOption.any (fun root =>
      (survey .heeded root).names = ["P", "+global"] ∧
      (surveyed .ignored root).map (fun d => (d.name, d.exceptions)) = [("f", ["E"]), ("g", [])] ∧
      (surveyed .heeded root).map (fun d => (d.name, d.exceptions)) =
        [("f", ["A", "E"]), ("g", ["B"])]) := by
    decide +kernel
  cases h : parse annotatedFunctions 256 with
  | error e => simp [h, Except.toOption] at hsurveyed
  | ok root =>
      rw [h] at hsurveyed
      obtain ⟨hnames, hignored, hheeded⟩ := of_decide_eq_true hsurveyed
      exact ⟨root, rfl, (survey_ignored root).1.trans hnames, hignored, hheeded⟩

end Census
