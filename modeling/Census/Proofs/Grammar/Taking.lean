import Census.Grammar.File
import Census.Proofs.Grammar.Rounds

namespace Census.Grammar

-- From `s` to `t`, the terminals `taken` are taken and no other ones.
structure Input.Passes (s : Input) (taken : List Terminal) (t : Input) : Prop where
  rest : s.rest = taken ++ t.rest
  index : t.index = s.index + taken.length

namespace Input.Passes

variable {s t u : Input} {xs ys : List Terminal}

theorem refl (s : Input) : s.Passes [] s := ⟨rfl, rfl⟩

theorem trans (h : s.Passes xs t) (h' : t.Passes ys u) : s.Passes (xs ++ ys) u where
  rest := by rw [h.rest, h'.rest, List.append_assoc]
  index := by rw [h'.index, h.index, List.length_append, Nat.add_assoc]

theorem length (h : s.Passes xs t) : s.rest.length = xs.length + t.rest.length := by
  rw [h.rest, List.length_append]

end Input.Passes

namespace Parser

variable {α β : Type}

-- How many terminals a round takes at least, where a loop that ends takes `n` at least.
def Round.cost (n : β → Nat) : Round α β → Nat
  | .again _ => 1
  | .done b => n b

-- Whatever `p` comes to, it takes at least as many terminals for it as `n` says.
def Takes (n : α → Nat) (p : Parser α) : Prop :=
  ∀ s a t, p s = .ok (a, t) → ∃ taken, n a ≤ taken.length ∧ s.Passes taken t

namespace Takes

variable {m n : α → Nat} {p : Parser α}

theorem mono (h : Takes m p) (hle : ∀ a, n a ≤ m a) : Takes n p := by
  intro s a t hp
  obtain ⟨taken, hlen, hpass⟩ := h s a t hp
  exact ⟨taken, Nat.le_trans (hle a) hlen, hpass⟩

theorem pure {a : α} (h : n a = 0) : Takes n (Pure.pure a) := by
  intro s b t hp
  cases hp
  exact ⟨[], Nat.le_of_eq h, .refl s⟩

-- Where the input stays as it is, nothing has to be taken.
theorem of_stay (h : ∀ s a t, p s = .ok (a, t) → t = s) : Takes (fun _ => 0) p := by
  intro s a t hp
  rw [h s a t hp]
  exact ⟨[], Nat.le_refl _, .refl s⟩

theorem of_error (h : ∀ s, ∃ e, p s = .error e) : Takes n p := by
  intro s a t hp
  obtain ⟨e, he⟩ := h s
  cases he.symm.trans hp

theorem next : Takes (fun _ => 1) next := by
  rintro ⟨index, rest⟩ a t h
  cases rest with
  | nil => cases h
  | cons m rest =>
      cases h
      exact ⟨[m], Nat.le_refl _, rfl, rfl⟩

-- What is behind `p` has to take what is still missing.
theorem bind {f : α → Parser β} {n : β → Nat} (hp : Takes m p)
    (hf : ∀ a, Takes (fun b => n b - m a) (f a)) : Takes n (p >>= f) := by
  intro s b u h
  obtain ⟨a, t, ha, hb⟩ := bind_eq_ok h
  obtain ⟨xs, hxs, hs⟩ := hp s a t ha
  obtain ⟨ys, hys, ht⟩ := hf a t b u hb
  refine ⟨xs ++ ys, ?_, hs.trans ht⟩
  rw [List.length_append, Nat.add_comm]
  exact Nat.le_trans (Nat.sub_le_iff_le_add.1 hys) (Nat.add_le_add_left hxs _)

end Takes

section Loop

variable {step : α → Parser (Round α β)} {n : β → Nat} {a : α} {b : β} {s t : Input}

-- The rounds of a loop that ends, without any bound on their number: the last of them comes to
-- a result or fails.
inductive Halts (step : α → Parser (Round α β)) : α → Input → Except Failure (β × Input) → Prop
  | done {a : α} {s t : Input} {b : β} (h : step a s = .ok (.done b, t)) : Halts step a s (.ok (b, t))
  | failed {a : α} {s : Input} {e : Failure} (h : step a s = .error e) : Halts step a s (.error e)
  | again {a a' : α} {s t : Input} {outcome : Except Failure (β × Input)}
      (h : step a s = .ok (.again a', t)) (behind : Halts step a' t outcome) : Halts step a s outcome

-- By induction on the terminals that are left: every round that is followed by another one takes
-- one of them, so the rounds that are allowed do not run out.
theorem halts_rounds (h : ∀ a, Takes (Round.cost n) (step a)) (fuel : List Terminal)
    (hfuel : s.rest.length ≤ fuel.length) : Halts step a s (rounds step fuel a s) := by
  induction hleft : s.rest.length using Nat.strongRecOn generalizing a s fuel with
  | ind left ih =>
      cases hr : step a s with
      | error e =>
          have hrounds : rounds step fuel a s = .error e := by cases fuel <;> exact bind_of_error hr
          rw [hrounds]
          exact .failed hr
      | ok r =>
          obtain ⟨r, t⟩ := r
          cases r with
          | done b =>
              rw [rounds_of_done hr]
              exact .done hr
          | again a' =>
              obtain ⟨taken, hcost, hpass⟩ := h a s _ t hr
              have hlength := hpass.length
              simp only [Round.cost] at hcost
              cases fuel with
              | nil =>
                  rw [List.length_nil] at hfuel
                  omega
              | cons m fuel =>
                  rw [List.length_cons] at hfuel
                  rw [rounds_of_again hr]
                  exact .again hr (ih _ (by omega) fuel (by omega) rfl)

theorem halts_iterate (h : ∀ a, Takes (Round.cost n) (step a)) (a : α) (s : Input) :
    Halts step a s (iterate step a s) := halts_rounds h s.rest (Nat.le_refl _)

theorem Halts.takes (h : ∀ a, Takes (Round.cost n) (step a)) {outcome : Except Failure (β × Input)}
    (hs : Halts step a s outcome) (hok : outcome = .ok (b, t)) :
    ∃ taken, n b ≤ taken.length ∧ s.Passes taken t := by
  induction hs with
  | done hr =>
      cases hok
      exact h _ _ _ _ hr
  | failed _ => cases hok
  | again hr _ ih =>
      obtain ⟨xs, -, hxs⟩ := h _ _ _ _ hr
      obtain ⟨ys, hys, hpass⟩ := ih hok
      refine ⟨xs ++ ys, ?_, hxs.trans hpass⟩
      rw [List.length_append]
      omega

theorem Takes.iterate (h : ∀ a, Takes (Round.cost n) (step a)) (a : α) : Takes n (iterate step a) :=
  fun s _ _ hok => (halts_iterate h a s).takes h hok

end Loop

-- A parser in which no loop goes on forever: it is put together from parsers that have none, from
-- what is parsed one level deeper, and from loops that end wherever they begin.
inductive Terminating (deeper : Deeper) : {α : Type} → Parser α → Prop
  | pure {α : Type} (a : α) : Terminating deeper (Pure.pure a : Parser α)
  | bind {α β : Type} {p : Parser α} {f : α → Parser β} :
      Terminating deeper p → (∀ a, Terminating deeper (f a)) → Terminating deeper (p >>= f)
  | deeper (goal : Goal) : Terminating deeper (deeper goal)
  | next : Terminating deeper next
  | here : Terminating deeper here
  | ahead (n : Nat) : Terminating deeper (ahead n)
  | castAhead (n : Nat) : Terminating deeper (castAhead n)
  | unexpected {α : Type} (expected : Expected) :
      Terminating deeper (unexpected expected : Parser α)
  | atEnd {α : Type} : Terminating deeper (fail .atEnd : Parser α)
  | iterate {α β : Type} {step : α → Parser (Round α β)}
      (halts : ∀ a s, Halts step a s (iterate step a s)) :
      (∀ a, Terminating deeper (step a)) → ∀ a, Terminating deeper (iterate step a)

end Parser

end Census.Grammar
