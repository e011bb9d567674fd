import Census.Proofs.Operators.Reading

namespace Census

open Grammar Parser

namespace Grammar.Parser

variable {script : Script} {e : Term} {i : Nat} {rest : List Word}

theorem fullStatement_of_isOpening (d : Deeper) {kind : TokenKind}
    (h : Term.isOpening kind = true) : fullStatement d kind = expressionStatement d := by
  cases kind with
  | symbol s =>
      cases s with
      | leftBrace => exact absurd h (by decide)
      | _ => rfl
  | keyword k => exact absurd h (by simp [Term.isOpening])
  | _ => rfl

-- The draft of a statement that is nothing but an expression.
def ShowsStatement (script : Script) (e : Term) (d : Draft) : Prop :=
  script.form d = ⟨(.expressionStatement, ""), [e.shape]⟩

theorem expressionStatement_yields {d : Deeper} (hd : d.ReadsAll script)
    (hs : script.Spells i (e.words ++ .semicolon :: rest)) :
    Yields (expressionStatement d) (.ofWords i (e.words ++ .semicolon :: rest)) fun r t =>
      ShowsStatement script e r ∧ t = .ofWords (i + e.words.length + 1) rest := by
  have hwords : e.wordsAt 0 = e.words := Term.wordsAt_of_le (Nat.zero_le _)
  have hread := hd.expression e i (.semicolon :: rest)
  rw [Finds, hwords] at hread
  refine (hread hs (.cons (by decide))).bind ?_
  rintro value t ⟨hv, rfl⟩
  refine .terminator (.pure ⟨?_, rfl⟩)
  rw [ShowsStatement, ← hv, Script.form, Tree.map_mk]
  rfl

theorem statement_yields (levels : Nat) (hs : script.Spells i (e.words ++ .semicolon :: rest)) :
    Yields (parse levels .statement) (.ofWords i (e.words ++ .semicolon :: rest)) fun r t =>
      ∃ d, r = some d ∧ ShowsStatement script e d ∧
        t = .ofWords (i + e.words.length + 1) rest := by
  cases levels with
  | zero => exact .tooDeep
  | succ levels =>
      obtain ⟨w, ws, hwords, hw⟩ := e.wordsAt_opening 0
      rw [Term.wordsAt_of_le (Nat.zero_le _)] at hwords
      have hkind : ((e.words ++ .semicolon :: rest)[0]?).map Word.kind = some w.kind := by
        rw [hwords]
        rfl
      refine .ahead 0 ?_
      rw [hkind]
      split
      · rename_i h
        cases h
      · rename_i h
        rw [Option.some.inj h] at hw
        exact absurd hw (by decide)
      · rename_i h
        rw [Option.some.inj h] at hw
        exact absurd hw (by decide)
      · rename_i kind _ _ h
        rw [← Option.some.inj h, fullStatement_of_isOpening _ hw]
        refine (expressionStatement_yields (parse_readsAll script levels) hs).bind ?_
        rintro r t ⟨hr, rfl⟩
        exact .pure ⟨r, rfl, hr, rfl⟩

-- A file of one statement.
theorem file_yields (levels : Nat) (hs : script.Spells 0 (e.words ++ [.semicolon])) :
    Yields (file (parse levels)) (.ofWords 0 (e.words ++ [.semicolon])) fun ds _ =>
      ∃ d, ds = [d] ∧ ShowsStatement script e d := by
  obtain ⟨w, ws, hwords, hw⟩ := e.wordsAt_opening 0
  rw [Term.wordsAt_of_le (Nat.zero_le _)] at hwords
  have hkind : ((e.words ++ [.semicolon])[0]?).map Word.kind = some w.kind := by
    rw [hwords]
    rfl
  have htop : Yields (topStatement (parse levels)) (.ofWords 0 (e.words ++ [.semicolon]))
      fun ds t => ∃ d, ds = [d] ∧ ShowsStatement script e d ∧
        t = .ofWords (e.words.length + 1) [] := by
    refine .ahead 0 ?_
    rw [hkind]
    split
    · rename_i h
      rw [Option.some.inj h] at hw
      exact absurd hw (by decide)
    · rename_i h
      rw [Option.some.inj h] at hw
      exact absurd hw (by decide)
    · refine (statement_yields levels hs).bind ?_
      rintro r t ⟨d, rfl, hd, rfl⟩
      exact .pure ⟨d, rfl, hd, by rw [Nat.zero_add]⟩
  refine Loops.iterate (Loops.again ?_)
  refine .ahead 0 ?_
  rw [hkind]
  refine .ahead 1 (.ite_neg ?_ (htop.bind ?_))
  · intro h
    simp only [Bool.and_eq_true, decide_eq_true_eq] at h
    rw [h.1] at hw
    exact absurd hw (by decide)
  · rintro ds t ⟨d, rfl, hd, rfl⟩
    refine .pure ⟨_, rfl, by simp [Input.ofWords], Loops.done ?_⟩
    exact .ahead 0 (.pure ⟨_, rfl, d, rfl, hd⟩)

end Grammar.Parser

end Census
