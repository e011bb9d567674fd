import Census.Proofs.Grammar.ValueStatements
import Census.Proofs.Script.Span

namespace Census

open Grammar

namespace Script

variable {script : Script}

theorem isValue_of_namesCast {token : Token} (h : namesCast token = true) :
    token.kind.isValue = false := by
  simp only [namesCast, Bool.and_eq_true, Bool.or_eq_true, decide_eq_true_eq] at h
  rcases h.1 with h | h <;> rw [h] <;> rfl

theorem terminals_proper (script : Script) : Input.Proper ⟨0, script.terminals⟩ := by
  intro m hm
  obtain ⟨lexeme, -, rfl⟩ := List.mem_map.1 hm
  exact isValue_of_namesCast

-- The images of the values among the last lexemes of a script are the texts of their tokens.
theorem image_valuesFrom {lexemes : List Lexeme} (index : Nat)
    (h : ∀ k, script.lexemes[index + k]? = lexemes[k]?) :
    (valuesFrom index (lexemes.map fun l => ⟨l.token.kind, namesCast l.token⟩)).map script.image =
      ((lexemes.map (·.token)).filter (·.kind.isValue)).map (·.text) := by
  induction lexemes generalizing index with
  | nil => rfl
  | cons lexeme rest ih =>
      have htext : script.text index = lexeme.token.text := by
        rw [text, show script.lexemes[index]? = some lexeme from h 0]
        rfl
      have hrest := ih (index + 1) fun k => by
        rw [Nat.add_assoc, Nat.add_comm 1 k]
        exact h (k + 1)
      rw [List.map_cons, valuesFrom, List.map_append, hrest, List.map_cons, List.filter_cons]
      split
      · simp [image_token, htext]
      · simp

-- The images of the values among the contents of a tree, in preorder.
def shownValues (t : Tree Content) : List String :=
  (t.subtrees.filter (·.label.kind.isValue)).map (·.label.image)

theorem shownValues_shown (script : Script) (d : Draft) :
    shownValues (script.shown d) = d.values.map script.image := by
  rw [shownValues, shown, Tree.subtrees_map, List.filter_map, List.map_map, Draft.values, List.map_map]
  simp only [Function.comp_def, Tree.label_map]
  rfl

theorem shownValues_said (node : Node) :
    (node.subtrees.filter fun n : Node => n.kind.isValue).map Node.image = shownValues node.said := by
  rw [shownValues, Node.said, Tree.subtrees_map, List.filter_map, List.map_map]
  simp only [Function.comp_def, Tree.label_map]
  rfl

theorem values_root (script : Script) (drafts : List Draft) :
    ((script.root drafts).subtrees.filter fun n : Node => n.kind.isValue).map Node.image =
      (Draft.valuesAll drafts).map script.image := by
  have hall : ((drafts.map script.shown).flatMap shownValues) =
      (Draft.valuesAll drafts).map script.image := by
    rw [List.flatMap_map, Draft.valuesAll, List.map_flatMap]
    simp only [shownValues_shown]
  rw [shownValues_said, root_said, ← hall, shownValues, Tree.subtrees_mk,
    List.filter_cons_of_neg (by simp [NodeKind.isValue]), List.filter_flatMap, List.map_flatMap]
  rfl

end Script

theorem isSignificant_of_isValue {kind : TokenKind} (h : kind.isValue = true) :
    kind.isSignificant = true := by
  cases kind <;> first | rfl | cases h

-- The variables, numbers and strings of a script are those of its tree, in the same order.
theorem parse_values {source : String} {limit : Nat} {root : Node}
    (h : parse source limit = .ok root) :
    ((tokenize source).1.filter (·.kind.isValue)).map (·.text) =
      (root.descendants.filter fun node : Node => node.kind.isValue).map Node.image := by
  obtain ⟨drafts, hdrafts, rfl⟩ := Script.parse_ok h
  have hvalues := parseFile_values (Script.terminals_proper _) hdrafts
  rw [Node.descendants_eq, Script.values_root, hvalues, Script.terminals,
    Script.image_valuesFrom 0 (by simp), Script.lexemes_ofSource, significantTokens, List.filter_filter]
  refine congrArg _ (List.filter_congr fun t _ => ?_)
  cases hvalue : t.kind.isValue with
  | true => simp [isSignificant_of_isValue hvalue]
  | false => rfl

-- An assignment with two variables, a number and a string.
theorem parse_values_assignment : ∃ root, parse "<?php $x[1] = f($y, 'z');" 256 = .ok root ∧
    (root.descendants.filter fun node : Node => node.kind.isValue).map Node.image =
      ["$x", "1", "$y", "'z'"] := by
  have hparses : (parse "<?php $x[1] = f($y, 'z');" 256).toOption.isSome = true := by
    decide +kernel
  have htexts : ((tokenize "<?php $x[1] = f($y, 'z');").1.filter (·.kind.isValue)).map (·.text) =
      ["$x", "1", "$y", "'z'"] := by decide +kernel
  cases h : parse "<?php $x[1] = f($y, 'z');" 256 with
  | error e => simp [h, Except.toOption] at hparses
  | ok root => exact ⟨root, rfl, (parse_values h).symm.trans htexts⟩

end Census
