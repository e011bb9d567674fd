import Census.Proofs.Skeleton.Lexing
import Census.Proofs.Skeleton.Survey

namespace Census

open Grammar

namespace Skeleton

variable {script : Script} {layout : Layout} {atoms : List Atom}

theorem terminals_of_meanings (h : script.meanings = atoms.mapIdx fun k a => a.meaning (layout k)) :
    script.terminals = atoms.map Atom.terminal := by
  rw [Script.terminals_eq, h]
  apply List.ext_getElem?
  intro k
  simp only [List.getElem?_map, List.getElem?_mapIdx, Option.map_map]
  rfl

theorem says_of_meanings (h : script.meanings = atoms.mapIdx fun k a => a.meaning (layout k)) :
    Says script 0 atoms := by
  intro k a hk
  have hmeaning : script.meanings[k]? = some (a.meaning (layout k)) := by
    rw [h, List.getElem?_mapIdx, hk, Option.map_some]
  rw [Nat.zero_add]
  refine ⟨?_, ?_⟩
  · rw [Script.text_eq, hmeaning]
    rfl
  · rw [Script.docOf_eq, hmeaning, Option.bind_some, Atom.meaning]
    cases a.annotated with
    | none => rfl
    | some annotated =>
        rw [Option.map_some, Option.map_some, Option.map_some,
          DocComment.throws_docComment (layout k).margin.2]

end Skeleton

-- However a skeleton is laid out, the script is parsed, and its registry holds just the declarations
-- of the skeleton.
theorem parse_skeleton (skeleton : Skeleton) (layout : Skeleton.Layout) : ∃ root,
    parse (skeleton.source layout) defaultNesting = .ok root ∧
      survey .heeded root = .grouped
        (skeleton.declarations (Script.ofSource (skeleton.source layout)).spanOf) := by
  obtain ⟨hmeanings, hending⟩ := skeleton.meanings_source layout
  have hparse : parseFile defaultNesting (Script.ofSource (skeleton.source layout)).terminals =
      .ok skeleton.drafts := by
    rw [Skeleton.terminals_of_meanings hmeanings]
    exact skeleton.parseFile_atoms 252
  refine ⟨_, Script.parse_of_drafts hending hparse, ?_⟩
  rw [survey, Skeleton.surveyed_drafts (Skeleton.says_of_meanings hmeanings), Registry.ofDeclarations_eq]

-- The tightest layout of a function in a namespace.
example :
    let scope : Identifier := ⟨"A", by decide, by decide, by decide +kernel⟩
    let name : Identifier := ⟨"f", by decide, by decide, by decide +kernel⟩
    let failure : Identifier := ⟨"E", by decide, by decide, by decide +kernel⟩
    let procedure : Skeleton.Procedure :=
      { name, annotated := some [⟨failure, []⟩, ⟨scope, [failure]⟩], thrown := [⟨failure, []⟩] }
    (Skeleton.mk [⟨⟨scope, []⟩, [.function procedure]⟩]).source
        (fun _ => ⟨⟨[], rfl⟩, ⟨[], rfl⟩, ⟨[], rfl⟩⟩) =
      "<?php namespace A;/**\n* @throws E\n* @throws A\\E\n*/function f()\x7bthrow new E();\x7d" := by
  decide +kernel

end Census
