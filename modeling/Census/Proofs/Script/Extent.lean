import Census.Proofs.Grammar.FormingStatements
import Census.Proofs.Script.Span

namespace Census

open Grammar

namespace Script

-- A call that reads an expression or a statement from token `i` on into a node. Token `j` is the
-- last one that it takes.
inductive Call (terminals : List Terminal) (levels i j : Nat) : Goal → Draft → Prop
  | expression {d : Draft}
      (h : Grammar.parse levels .expression (.behind terminals i) = .ok (d, .behind terminals (j + 1))) :
      Call terminals levels i j .expression d
  | statement {d : Draft} (h : Grammar.parse levels .statement (.behind terminals i) =
        .ok (some d, .behind terminals (j + 1))) :
      Call terminals levels i j .statement d

end Script

-- A span from token `first` to token `last` out of the tokens from `i` to `j`. It leaves out
-- parentheses in front, and parentheses and braces behind.
structure Span.Covers (span : Span) (tokens : List Token) (i j first last : Nat) : Prop where
  opened : i ≤ first
  ordered : first ≤ last
  closed : last ≤ j
  start : ∃ t, tokens[first]? = some t ∧ span.start = t.span.start
  stop : ∃ t, tokens[last]? = some t ∧ span.stop = t.span.stop
  openers : ∀ k, i ≤ k → k < first →
    ∃ t, tokens[k]? = some t ∧ t.kind = .symbol .leftParen
  closers : ∀ k, last < k → k ≤ j →
    ∃ t, tokens[k]? = some t ∧ (t.kind = .symbol .rightParen ∨ t.kind = .symbol .rightBrace)

namespace Script

variable {source : String} {ts : List Terminal} {levels i j k : Nat} {goal : Goal} {d : Draft}

-- What the grammar knows of the ends of a node.
theorem Call.ends (h : Call ts levels i j goal d) :
    Opened ts i d.first ∧ Closed ts d.last (j + 1) ∧ (goal = .statement → d.last = j) := by
  have hforming := parse_forming ts levels
  cases h with
  | expression h =>
      obtain ⟨j', hj, hwithin⟩ := hforming .expression i trivial _ _ h
      cases hj
      exact ⟨hwithin.opened, hwithin.closed, nofun⟩
  | statement h =>
      obtain ⟨j', hj, hending, -⟩ := hforming .statement i trivial _ _ h
      cases hj
      obtain ⟨-, hopened, hlast⟩ := hending d rfl
      obtain rfl := Nat.succ.inj hlast
      exact ⟨hopened, .succ, fun _ => rfl⟩

theorem Call.sits (h : Call ts levels i j goal d) :
    i ≤ d.first ∧ d.first ≤ d.last ∧ d.last ≤ j ∧ j < ts.length := by
  have hstop (n : Nat) : (Input.behind ts n).stop = n + (ts.length - n) := by
    rw [Input.stop, Input.behind, List.length_drop]
  have hplacing := parse_placing levels
  obtain ⟨hsits, hstops⟩ : Sits i (j + 1) d ∧
      (Input.behind ts (j + 1)).stop = (Input.behind ts i).stop := by
    cases h with
    | expression h =>
        have hrun := (hplacing .expression _ _ (Nat.le_add_right _ _)).of_ok h
        exact ⟨hrun.2.2, hrun.2.1⟩
    | statement h =>
        have hrun := (hplacing .statement _ _ (Nat.le_add_right _ _)).of_ok h
        exact ⟨hrun.2.2.2.1, hrun.2.1⟩
  have hbounds := hsits.bounds
  rw [hstop, hstop] at hstops
  omega

theorem token_of_lt (source : String) (h : k < (significantTokens source).length) :
    ∃ t, (significantTokens source)[k]? = some t ∧ (ofSource source).spanOf k = t.span :=
  ⟨_, List.getElem?_eq_getElem h, spanOf_eq h⟩

end Script

-- A node reaches over the tokens that were read for it, but for parentheses and braces at its
-- ends. It begins with the first of them unless that is a parenthesis, and it ends with the last
-- one if it is a statement, or if that token closes nothing.
theorem parse_extent {source : String} {levels i j : Nat} {goal : Goal} {d : Draft}
    (h : Script.Call (Script.ofSource source).terminals levels i j goal d) :
    ∃ first last, Span.Covers ((Script.ofSource source).shown d).label.span
        (significantTokens source) i j first last ∧
      ((∀ t, (significantTokens source)[i]? = some t → t.kind ≠ .symbol .leftParen) → first = i) ∧
      (goal = .statement ∨ (∀ t, (significantTokens source)[j]? = some t →
        t.kind ≠ .symbol .rightParen ∧ t.kind ≠ .symbol .rightBrace) → last = j) := by
  obtain ⟨hopened, hclosed, hstatement⟩ := h.ends
  obtain ⟨hfirst, hordered, hlast, hlt⟩ := h.sits
  rw [Script.terminals_length] at hlt
  obtain ⟨a, ha, hstart⟩ := Script.token_of_lt (k := d.first) source (by omega)
  obtain ⟨b, hb, hstop⟩ := Script.token_of_lt (k := d.last) source (by omega)
  have hspan : ((Script.ofSource source).shown d).label.span = ⟨a.span.start, b.span.stop⟩ := by
    rw [Script.shown, Tree.label_map, Script.content, ← hstart, ← hstop]
    rfl
  have hopeners : ∀ k, i ≤ k → k < d.first →
      ∃ t, (significantTokens source)[k]? = some t ∧ t.kind = .symbol .leftParen :=
    fun k hk hk' => Script.token_of_kindAt (hopened.parens k hk hk')
  have hclosers : ∀ k, d.last < k → k ≤ j → ∃ t, (significantTokens source)[k]? = some t ∧
      (t.kind = .symbol .rightParen ∨ t.kind = .symbol .rightBrace) := by
    intro k hk hk'
    rcases hclosed.closers k hk (Nat.lt_succ_of_le hk') with hparen | hbrace
    · obtain ⟨t, ht, hkind⟩ := Script.token_of_kindAt hparen
      exact ⟨t, ht, .inl hkind⟩
    · obtain ⟨t, ht, hkind⟩ := Script.token_of_kindAt hbrace
      exact ⟨t, ht, .inr hkind⟩
  refine ⟨d.first, d.last, ⟨hfirst, hordered, hlast, ⟨a, ha, ?_⟩, ⟨b, hb, ?_⟩, hopeners, hclosers⟩,
    fun hi => ?_, fun hj => ?_⟩
  · rw [hspan]
  · rw [hspan]
  · rcases Nat.lt_or_eq_of_le hfirst with hlt | heq
    · obtain ⟨t, ht, hkind⟩ := hopeners i (Nat.le_refl i) hlt
      exact absurd hkind (hi t ht)
    · exact heq.symm
  · rcases hj with hgoal | hj
    · exact hstatement hgoal
    · rcases Nat.lt_or_eq_of_le hlast with hlt | heq
      · obtain ⟨t, ht, hkind⟩ := hclosers j hlt (Nat.le_refl j)
        exact absurd hkind (not_or.2 (hj t ht))
      · exact heq

-- The statement of a script of one call.
theorem parse_extent_call :
    ∃ d, Script.Call (Script.ofSource "<?php f($a);").terminals 256 0 4 .statement d ∧
      ∃ first last, Span.Covers ((Script.ofSource "<?php f($a);").shown d).label.span
        (significantTokens "<?php f($a);") 0 4 first last ∧ first = 0 ∧ last = 4 := by
  have hresult : (Grammar.parse 256 .statement
      (.behind (Script.ofSource "<?php f($a);").terminals 0)).toOption.map
        (fun r => (r.1.isSome, r.2)) =
      some (true, .behind (Script.ofSource "<?php f($a);").terminals 5) := by decide +kernel
  have hword : ∀ t ∈ (significantTokens "<?php f($a);")[0]?, t.kind ≠ .symbol .leftParen := by
    decide +kernel
  cases h : Grammar.parse 256 .statement (.behind (Script.ofSource "<?php f($a);").terminals 0) with
  | error e => simp [h, Except.toOption] at hresult
  | ok r =>
      obtain ⟨_ | d, t⟩ := r
      · simp [h, Except.toOption] at hresult
      · obtain rfl : t = .behind _ 5 := by simpa [h, Except.toOption] using hresult
        obtain ⟨first, last, hcovers, hfirst, hlast⟩ := parse_extent (.statement h)
        exact ⟨d, .statement h, first, last, hcovers, hfirst hword, hlast (.inl rfl)⟩

-- The only node of this script is a statement that was read from its first token on, and that
-- begins behind it.
theorem parenthesized_statement_begins_inside : ∃ root d, parse "<?php ($a);" 256 = .ok root ∧
    Script.Call (Script.ofSource "<?php ($a);").terminals 256 0 3 .statement d ∧
      root.children.map Node.said = [(Script.ofSource "<?php ($a);").shown d] ∧
      ∀ t ∈ (significantTokens "<?php ($a);")[0]?,
        ((Script.ofSource "<?php ($a);").shown d).label.span.start ≠ t.span.start := by
  let d : Draft := ⟨{ kind := .expressionStatement, first := 1, last := 3 }, [Draft.leaf .variableName 1]⟩
  have hcall : (Grammar.parse 256 .statement
      (.behind (Script.ofSource "<?php ($a);").terminals 0)).toOption =
      some (some d, .behind (Script.ofSource "<?php ($a);").terminals 4) := by decide +kernel
  have hroot : (parse "<?php ($a);" 256).toOption =
      some ((Script.ofSource "<?php ($a);").root [d]) := by decide +kernel
  have hstart : ∀ t ∈ (significantTokens "<?php ($a);")[0]?,
      ((Script.ofSource "<?php ($a);").shown d).label.span.start ≠ t.span.start := by decide +kernel
  cases h : parse "<?php ($a);" 256 with
  | error e => simp [h, Except.toOption] at hroot
  | ok root =>
      cases h' : Grammar.parse 256 .statement
          (.behind (Script.ofSource "<?php ($a);").terminals 0) with
      | error e => simp [h', Except.toOption] at hcall
      | ok r =>
          simp only [h, Except.toOption, Option.some.injEq] at hroot
          simp only [h', Except.toOption, Option.some.injEq] at hcall
          rw [hroot]
          exact ⟨_, d, rfl, .statement (h'.trans (congrArg _ hcall)), Script.root_children _ [d], hstart⟩

end Census
