import Census.Proofs.Grammar.Limit
import Census.Proofs.Grammar.Proceeding
import Census.Proofs.Grammar.StatementPlacement

namespace Census.Grammar

-- A goal that is parsed from some input on, where at most `levels` levels may still be entered. All
-- recursion is of goals: the procedures that they are made of call one another in one direction
-- only, and one that came again would come to the goal again that it came to before.
structure Task where
  levels : Nat
  goal : Goal
  input : Input

-- One task enters another one if what it comes to depends on what that one comes to: there is an
-- answer to the goal, in that place only, that makes a difference. A goal that is not called makes
-- none. One that is called does: of two different failures, at least one is not what the task
-- comes to otherwise.
def Task.Enters (c c' : Task) : Prop :=
  c.levels = c'.levels + 1 ∧ ∃ d : Deeper,
    (∀ goal s, (goal, s) ≠ (c'.goal, c'.input) → d goal s = parse c'.levels goal s) ∧
    c.goal.production d c.input ≠ c.goal.production (parse c'.levels) c.input

-- The answers of `d`, but for one goal in one place, which fails with `e`.
open scoped Classical in
noncomputable def Deeper.failing (d : Deeper) (goal : Goal) (s : Input) (e : Failure) : Deeper :=
  fun g t => if (g, t) = (goal, s) then .error e else d g t

namespace Deeper

variable {d : Deeper} {goal g : Goal} {s t : Input} {e : Failure}

theorem failing_self : d.failing goal s e goal s = .error e := if_pos rfl

theorem failing_of_ne (h : (g, t) ≠ (goal, s)) : d.failing goal s e g t = d g t := if_neg h

end Deeper

namespace Parser

variable {α β : Type} {s : Input}

-- What `p` and `q` do behind `s`: they come to the same, and that is behind `s` too.
structure Agree (s : Input) (p q : Parser α) : Prop where
  same : ∀ t xs, s.Passes xs t → p t = q t
  stays : ∀ t xs, s.Passes xs t → ∀ a u, p t = .ok (a, u) → ∃ ys, s.Passes ys u

namespace Agree

theorem of_takes {n : α → Nat} {p : Parser α} (h : Takes n p) : Agree s p p where
  same _ _ _ := rfl
  stays t xs ht a u hp := by
    obtain ⟨ys, -, hu⟩ := h t a u hp
    exact ⟨xs ++ ys, ht.trans hu⟩

theorem pure (a : α) : Agree s (Pure.pure a) (Pure.pure a) := of_takes (.pure (n := fun _ => 0) rfl)

theorem atEnd : Agree s (fail .atEnd : Parser α) (fail .atEnd) :=
  of_takes (.of_error (n := fun _ => 0) fun _ => ⟨_, rfl⟩)

theorem bind {p q : Parser α} {f g : α → Parser β} (hp : Agree s p q)
    (hf : ∀ a, Agree s (f a) (g a)) : Agree s (p >>= f) (q >>= g) where
  same t xs ht := by
    cases h : p t with
    | error e => rw [bind_of_error h, bind_of_error ((hp.same t xs ht).symm.trans h)]
    | ok r =>
        obtain ⟨a, u⟩ := r
        obtain ⟨ys, hu⟩ := hp.stays t xs ht a u h
        rw [bind_of_ok h, bind_of_ok ((hp.same t xs ht).symm.trans h)]
        exact (hf a).same u ys hu
  stays t xs ht b v h := by
    obtain ⟨a, u, ha, hb⟩ := bind_eq_ok h
    obtain ⟨ys, hu⟩ := hp.stays t xs ht a u ha
    exact (hf a).stays u ys hu b v hb

theorem rounds {step step' : α → Parser (Round α β)} (h : ∀ a, Agree s (step a) (step' a))
    (fuel : List Terminal) (a : α) : Agree s (rounds step fuel a) (rounds step' fuel a) := by
  induction fuel generalizing a with
  | nil =>
      refine (h a).bind fun r => ?_
      cases r with
      | again _ => exact atEnd
      | done b => exact pure b
  | cons _ fuel ih =>
      refine (h a).bind fun r => ?_
      cases r with
      | again a => exact ih a
      | done b => exact pure b

theorem iterate {step step' : α → Parser (Round α β)} (h : ∀ a, Agree s (step a) (step' a))
    (a : α) : Agree s (iterate step a) (iterate step' a) :=
  ⟨fun t => (rounds h t.rest a).same t, fun t => (rounds h t.rest a).stays t⟩

end Agree

-- Answers that are given elsewhere are not asked for.
theorem Parallel.agree {d d' : Deeper} {p q : Parser α} (hd : ∀ goal, Agree s (d goal) (d' goal))
    (h : Parallel d d' p q) : Agree s p q := by
  induction h with
  | pure a => exact .pure a
  | bind _ _ hp hf => exact hp.bind hf
  | deeper goal => exact hd goal
  | next => exact .of_takes .next
  | here => exact .of_takes (Proceeds.here (d := d)).takes
  | ahead n => exact .of_takes (Proceeds.ahead (d := d) n).takes
  | castAhead n => exact .of_takes (Proceeds.castAhead (d := d) n).takes
  | unexpected expected =>
      exact .of_takes (Proceeds.unexpected (d := d) (n := fun _ => 0) expected).takes
  | atEnd => exact .atEnd
  | iterate _ a hs => exact .iterate hs a

end Parser

open Grammar.Parser

section Failing

variable {d₀ d d' : Deeper} {goal goal' : Goal} {s s' : Input}

-- Where an answer makes a difference, a failure in its stead is the failure of the whole.
theorem production_failing
    (hd : ∀ g t, (g, t) ≠ (goal', s') → d g t = d₀ g t)
    (hd' : ∀ g t, (g, t) ≠ (goal', s') → d' g t = d₀ g t)
    (hne : goal.production d s ≠ goal.production d' s) (e : Failure) :
    goal.production (d₀.failing goal' s' e) s = .error e := by
  have refines (d : Deeper) (hd : ∀ g t, (g, t) ≠ (goal', s') → d g t = d₀ g t) (g : Goal) :
      RefinesBut (· = e) (d₀.failing goal' s' e g) (d g) := by
    intro t
    by_cases h : (g, t) = (goal', s')
    · obtain ⟨rfl, rfl⟩ := Prod.mk.inj h
      exact .inl ⟨e, rfl, Deeper.failing_self⟩
    · exact .inr ((Deeper.failing_of_ne h).trans (hd g t h).symm)
  rcases (Parallel.production goal).refinesBut (refines d hd) s with ⟨f, rfl, hf⟩ | hp
  · exact hf
  rcases (Parallel.production goal).refinesBut (refines d' hd') s with ⟨f, rfl, hf⟩ | hp'
  · exact hf
  · exact absurd (hp.symm.trans hp') hne

-- A failure that is not one of depth stays what it is where more levels are allowed.
theorem production_failing_of_le {n m : Nat} (hnm : n ≤ m) {e : Failure} (he : ∀ k, e ≠ .tooDeep k)
    (h : goal.production ((parse n).failing goal' s' e) s = .error e) :
    goal.production ((parse m).failing goal' s' e) s = .error e := by
  have refines (g : Goal) :
      Refines ((parse n).failing goal' s' e g) ((parse m).failing goal' s' e g) := by
    intro t
    by_cases h : (g, t) = (goal', s')
    · obtain ⟨rfl, rfl⟩ := Prod.mk.inj h
      exact .inr (Deeper.failing_self.trans Deeper.failing_self.symm)
    · rw [Deeper.failing_of_ne h, Deeper.failing_of_ne h]
      exact parse_refines_of_le hnm g t
  rcases (Parallel.production goal).refines refines s with ⟨k, hk⟩ | hs
  · exact absurd (Except.error.inj (h.symm.trans hk)) (he k)
  · exact hs.symm.trans h

-- Levels that would not be enough for the goal alone are enough for whatever else is asked.
theorem placing_failing {n levels : Nat} {e : Failure} (hle : levels ≤ n)
    (hlt : levels < 2 * s'.rest.length + goal'.need) :
    Deeper.Placing levels ((parse n).failing goal' s' e) := by
  intro g t room hroom
  by_cases h : (g, t) = (goal', s')
  · obtain ⟨rfl, rfl⟩ := Prod.mk.inj h
    simp only [Run, Deeper.failing_self]
    intro hlevels
    simp only [Input.stop] at hroom
    omega
  · have hrun := parse_placing n g t room hroom
    simp only [Run, Deeper.failing_of_ne h] at hrun ⊢
    cases hp : parse n g t with
    | error f =>
        rw [hp] at hrun
        exact fun hlevels => hrun (Nat.le_trans hlevels hle)
    | ok r =>
        rw [hp] at hrun
        exact hrun

end Failing

namespace Task

variable {c c' : Task}

-- What is left of a task, in steps that it takes at most to enter another one.
def weight (c : Task) : Nat := 2 * c.input.rest.length + c.goal.need

-- The failure of a task that is entered is the failure of the task that enters it, also where
-- more levels are allowed.
theorem Enters.fails (h : c.Enters c') {levels : Nat} (hle : c'.levels ≤ levels) (e : Failure) :
    c.goal.production ((parse levels).failing c'.goal c'.input e) c.input = .error e := by
  obtain ⟨-, d, hd, hne⟩ := h
  have lifted (e : Failure) (he : ∀ k, e ≠ .tooDeep k) :=
    production_failing_of_le hle he (production_failing hd (fun _ _ _ => rfl) hne e)
  -- the two failures are different answers, and only to this goal
  have hend := lifted .atEnd (by simp)
  have hrefused := lifted (.unexpected 0 .expression) (by simp)
  have hne : c.goal.production ((parse levels).failing c'.goal c'.input .atEnd) c.input ≠
      c.goal.production ((parse levels).failing c'.goal c'.input (.unexpected 0 .expression)) c.input := by
    rw [hend, hrefused]
    simp
  exact production_failing (fun _ _ => Deeper.failing_of_ne) (fun _ _ => Deeper.failing_of_ne) hne e

-- Suppose the task that is entered weighed as much. Then levels that are not enough for it would be
-- enough for the one that enters it, which gives up with it nevertheless.
theorem Enters.weight_lt (h : c.Enters c') : c'.weight < c.weight := by
  have hneed := c.goal.need_pos
  have hneed' := c'.goal.need_pos
  have hfail := h.fails (Nat.le_add_right c'.levels c'.weight) (.tooDeep 0)
  have hplacing : Deeper.Placing (c'.weight - 1)
      ((parse (c'.levels + c'.weight)).failing c'.goal c'.input (.tooDeep 0)) :=
    placing_failing (by omega) (by simp only [weight]; omega)
  have hroom : 2 * c.input.stop + c.goal.need ≤ c.weight - 1 + 1 + 2 * c.input.index := by
    simp only [weight, Input.stop]
    omega
  have hrun := Goal.production_placed hplacing c.goal hroom
  simp only [Run, hfail] at hrun
  exact Nat.lt_of_not_le fun hle => hrun (Nat.sub_le_sub_right hle 1) 0 rfl

theorem Enters.behind (h : c.Enters c') : ∃ taken, c.input.Passes taken c'.input := by
  obtain ⟨-, d, hd, hne⟩ := h
  refine Classical.byContradiction fun hno => ?_
  have same (g : Goal) (t : Input) (xs : List Terminal) (ht : c.input.Passes xs t) :
      d g t = parse c'.levels g t := by
    refine hd g t fun heq => hno ⟨xs, ?_⟩
    rwa [(Prod.mk.inj heq).2] at ht
  have agree (g : Goal) : Agree c.input (d g) (parse c'.levels g) := by
    refine ⟨same g, fun t xs ht a u hu => ?_⟩
    rw [same g t xs ht] at hu
    exact (Agree.of_takes (parse_taking c'.levels g)).stays t xs ht a u hu
  exact hne (((Parallel.production c.goal).agree agree).same c.input [] (.refl _))

theorem need_lt {goal goal' : Goal} (h : goal'.need < goal.need) :
    goal = .statement ∧ goal' ≠ .statement := by
  have hneed' := goal'.need_pos
  cases goal with
  | statement =>
      refine ⟨rfl, ?_⟩
      rintro rfl
      exact Nat.lt_irrefl _ h
  | _ => exact absurd h (Nat.not_lt_of_le hneed')

-- Only a statement enters something without a terminal in between, and no other statement.
theorem Enters.passes (h : c.Enters c') : ∃ taken, c.input.Passes taken c'.input ∧
    (taken = [] → c.goal = .statement ∧ c'.goal ≠ .statement) := by
  obtain ⟨taken, hpass⟩ := h.behind
  refine ⟨taken, hpass, ?_⟩
  rintro rfl
  have hlength := hpass.length
  have hweight := h.weight_lt
  simp only [List.length_nil] at hlength
  simp only [weight] at hweight
  exact need_lt (by omega)

-- A statement that begins with a variable enters its expression and has taken nothing yet.
theorem enters_of_variable (levels index : Nat) (namesCast : Bool) (rest : List Terminal) :
    Enters ⟨levels + 1, .statement, ⟨index, ⟨.variableName, namesCast⟩ :: rest⟩⟩
      ⟨levels, .expression, ⟨index, ⟨.variableName, namesCast⟩ :: rest⟩⟩ := by
  generalize hs : (⟨index, ⟨.variableName, namesCast⟩ :: rest⟩ : Input) = s
  have fails (e : Failure) :
      Goal.statement.production ((parse levels).failing .expression s e) s = .error e := by
    have hvalue : expressionStatement ((parse levels).failing .expression s e) s = .error e :=
      bind_of_error Deeper.failing_self
    subst hs
    exact bind_of_error (p := expressionStatement _) hvalue
  have differs (e : Failure) (he : Goal.statement.production (parse levels) s ≠ .error e) :
      Enters ⟨levels + 1, .statement, s⟩ ⟨levels, .expression, s⟩ :=
    ⟨rfl, _, fun _ _ => Deeper.failing_of_ne, fun heq => he (heq.symm.trans (fails e))⟩
  by_cases hend : Goal.statement.production (parse levels) s = .error .atEnd
  · exact differs (.tooDeep 0) (by rw [hend]; simp)
  · exact differs .atEnd hend

theorem passes_of_transGen (h : Relation.TransGen Enters c c') :
    ∃ taken, c.input.Passes taken c'.input ∧
      (taken = [] → c.goal = .statement ∧ c'.goal ≠ .statement) := by
  induction h with
  | single h => exact h.passes
  | tail _ h ih =>
      obtain ⟨xs, hxs, hfirst⟩ := ih
      obtain ⟨ys, hys, hlast⟩ := h.passes
      refine ⟨xs ++ ys, hxs.trans hys, fun hnil => ?_⟩
      obtain ⟨hxnil, hynil⟩ := List.append_eq_nil_iff.1 hnil
      exact absurd (hlast hynil).1 (hfirst hxnil).2

end Task

end Census.Grammar
