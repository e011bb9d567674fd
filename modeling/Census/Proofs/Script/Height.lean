import Census.Proofs.Grammar.FormingStatements
import Census.Proofs.Grammar.Steps
import Census.Proofs.Operators.Precedence
import Census.Proofs.Script.Span

namespace Census

open Grammar

-- On every path from the root, the steps count that do not go from a node which a loop put around
-- what it had read to the first child of that node. There are no more of them than the levels
-- allow.
theorem parse_turns {source : String} {limit : Nat} {root : Node} (h : parse source limit = .ok root) :
    root.turns (·.content.kind.wraps) ≤ 7 * limit + 4 := by
  obtain ⟨drafts, hdrafts, rfl⟩ := Script.parse_ok h
  have hsound := parseFile_sound hdrafts
  have hsaid := Tree.turns_map Label.content (·.kind.wraps) ((Script.ofSource source).root drafts)
  refine Nat.le_trans (Nat.le_of_eq hsaid.symm) ?_
  rw [show Tree.map Label.content _ = _ from Script.root_said (Script.ofSource source) drafts]
  refine Tree.turns_node_le fun t ht => ?_
  obtain ⟨d, hd, rfl⟩ := List.mem_map.1 ht
  rw [Script.shown, Tree.turns_map]
  exact (hsound d hd).formed.turns_le

-- Two steps behind a variable in the argument of a call.
theorem parse_turns_call : ∃ root, parse "<?php f($a->b->c);" 4 = .ok root ∧
    root.turns (·.content.kind.wraps) ≤ 7 * 4 + 4 := by
  have hparses : (parse "<?php f($a->b->c);" 4).toOption.isSome = true := by decide +kernel
  cases h : parse "<?php f($a->b->c);" 4 with
  | error e => simp [h, Except.toOption] at hparses
  | ok root => exact ⟨root, rfl, parse_turns h⟩

namespace Word

def increment : Word := .symbol ⟨("++", .increment), by decide⟩

-- A variable that is increased `n` times.
def steps (n : Nat) : List Word := .named ⟨['a'], by decide⟩ :: List.replicate n increment

end Word

def stepSource (n : Nat) : String := .ofList ("<?php".toList ++ (Word.spaced (Word.steps n) ++ [';']))

-- The loop behind a primary expression enters no levels, so one limit admits trees of any height.
theorem parse_stepSource (levels n : Nat) :
    ∃ root, parse (stepSource n) (levels + 2) = .ok root ∧ root.height = n + 3 := by
  have hsource : (stepSource n).toList =
      "<?php".toList ++ (Word.spaced (Word.steps n) ++ (List.replicate 0 ' ' ++ [';'])) :=
    String.toList_ofList
  obtain ⟨hfaces, hending⟩ := tokenize_words (Word.steps n) hsource
  have hterminals : (Script.ofSource (stepSource n)).terminals = stepTerminals n [] := by
    rw [Script.terminals_of_faces hfaces]
    rw [stepTerminals, Word.steps, List.cons_append, List.map_cons, List.map_append,
      List.map_replicate]
    rfl
  refine ⟨(Script.ofSource (stepSource n)).root [.stepStatement n], ?_, ?_⟩
  · rw [parse, Script.parse, hterminals, parseFile_steps]
    simp only [show (Script.ofSource (stepSource n)).ending = none from hending]
  · have hheight := congrArg Tree.height
      (Script.root_said (Script.ofSource (stepSource n)) [.stepStatement n])
    rw [Node.said, Tree.height_map] at hheight
    rw [hheight]
    simp only [List.map_singleton, Tree.height, Tree.heightAll, Script.shown, Tree.height_map,
      Draft.stepStatement, Draft.height_stepped, Draft.leaf]
    omega

-- No bound for the heights of trees depends on the limit alone.
theorem height_unbounded : ¬ ∀ limit, ∃ bound, ∀ source root,
    parse source limit = .ok root → root.height ≤ bound := by
  intro h
  obtain ⟨bound, hbound⟩ := h 2
  obtain ⟨root, hparses, hheight⟩ := parse_stepSource 0 bound
  have hle := hbound _ root hparses
  omega

end Census
