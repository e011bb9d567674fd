import Census.Proofs.Grammar.Recursion

namespace Census.Grammar

open Grammar.Parser

-- What a file and its parts consist of: goals, what stands at the top level of a file, and what
-- stands in lists.
inductive Item where
  | ofGoal (goal : Goal)
  | topStatement
  | namespaceDeclaration
  | importClause
  | typeReference (kind : NodeKind)
  | parameter
  | argument
  | arrayElement

namespace Item

@[reducible]
def Result : Item → Type
  | .ofGoal goal => goal.Result
  | .topStatement => List Draft
  | _ => Draft

def parser (deeper : Deeper) : (item : Item) → Parser item.Result
  | .ofGoal goal => deeper goal
  | .topStatement => Parser.topStatement deeper
  | .namespaceDeclaration => Parser.namespaceDeclaration deeper
  | .importClause => Parser.importClause
  | .typeReference kind => Name.node kind <$> qualifiedName
  | .parameter => Parser.parameter deeper
  | .argument => Parser.argument deeper
  | .arrayElement => Parser.arrayElement deeper

theorem moves {d : Deeper} (hd : d.Taking) (item : Item) : Moves d (item.parser d) := by
  cases item with
  | ofGoal goal => exact .deeper hd goal
  | topStatement => exact .topStatement hd
  | namespaceDeclaration => exact .namespaceDeclaration hd
  | importClause => exact .importClause
  | typeReference kind => exact .map .qualifiedName
  | parameter => exact .parameter hd
  | argument => exact .argument hd
  | arrayElement => exact .arrayElement hd

end Item

-- Every item takes a terminal, every loop ends, and no goal is entered a second time, by however many
-- goals in between, unless a terminal is taken in between. Without one, only a statement enters
-- another goal, which is no statement and enters none.
theorem parse_progress (levels : Nat) :
    (∀ (item : Item) (s t : Input) (r : item.Result),
      item.parser (parse levels) s = .ok (r, t) → ∃ taken, taken ≠ [] ∧ s.Passes taken t) ∧
    (Terminating (parse levels) (Parser.file (parse levels)) ∧
      ∀ goal : Goal, Terminating (parse levels) (goal.production (parse levels))) ∧
    ∀ c c' : Task, Relation.TransGen Task.Enters c c' →
      ∃ taken, c.input.Passes taken c'.input ∧
        (taken = [] → c.goal = .statement ∧ c'.goal ≠ .statement) := by
  have hd := parse_taking levels
  refine ⟨fun item s t r h => ?_, ⟨(Proceeds.file hd).ends, fun goal => (Proceeds.production hd goal).ends⟩,
    fun _ _ => Task.passes_of_transGen⟩
  obtain ⟨taken, hlen, hpass⟩ := (item.moves hd).takes s r t h
  exact ⟨taken, List.ne_nil_of_length_pos hlen, hpass⟩

end Census.Grammar
