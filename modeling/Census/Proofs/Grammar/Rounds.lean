import Census.Grammar.Parser

namespace Census.Grammar

namespace Parser

variable {α β : Type} {s s' t : Input}

theorem bind_eq_ok {p : Parser α} {f : α → Parser β} {r : β × Input} (h : (p >>= f) s = .ok r) :
    ∃ a t, p s = .ok (a, t) ∧ f a t = .ok r := by
  simp only [Bind.bind] at h
  cases hp : p s with
  | error e =>
      rw [hp] at h
      cases h
  | ok q =>
      rw [hp] at h
      exact ⟨q.1, q.2, rfl, h⟩

theorem bind_of_ok {p : Parser α} {f : α → Parser β} {a : α} (h : p s = .ok (a, t)) :
    (p >>= f) s = f a t := by
  simp only [Bind.bind, h]

theorem bind_of_error {p : Parser α} {f : α → Parser β} {e : Failure} (h : p s = .error e) :
    (p >>= f) s = .error e := by
  simp only [Bind.bind, h]

theorem bind_congr {p : Parser α} {f g : α → Parser β} (h : ∀ a t, p s = .ok (a, t) → f a t = g a t) :
    (p >>= f) s = (p >>= g) s := by
  cases hp : p s with
  | error e => exact (bind_of_error hp).trans (bind_of_error hp).symm
  | ok q => exact (bind_of_ok hp).trans ((h _ _ hp).trans (bind_of_ok hp).symm)

theorem ahead_bind (n : Nat) (f : Option TokenKind → Parser β) (s : Input) :
    (ahead n >>= f) s = f ((s.rest[n]?).map (·.kind)) s := rfl

theorem rounds_of_done {step : α → Parser (Round α β)} {a : α} {b : β} (h : step a s = .ok (.done b, t))
    (fuel : List Terminal) : rounds step fuel a s = .ok (b, t) := by
  cases fuel <;> exact bind_of_ok h

theorem rounds_of_again {step : α → Parser (Round α β)} {a a' : α} (h : step a s = .ok (.again a', t))
    (m : Terminal) (fuel : List Terminal) : rounds step (m :: fuel) a s = rounds step fuel a' t :=
  bind_of_ok h

theorem rounds_nil_of_again {step : α → Parser (Round α β)} {a a' : α}
    (h : step a s = .ok (.again a', t)) : rounds step [] a s = .error .atEnd := bind_of_ok h

-- The rounds of a loop that comes to a result.
inductive Turns (step : α → Parser (Round α β)) : α → Input → β → Input → Prop
  | done {a : α} {s t : Input} {b : β} (h : step a s = .ok (.done b, t)) : Turns step a s b t
  | again {a a' : α} {s s' t : Input} {b : β} (h : step a s = .ok (.again a', s'))
      (behind : Turns step a' s' b t) : Turns step a s b t

theorem turns_of_rounds {step : α → Parser (Round α β)} {fuel : List Terminal} {a : α} {b : β}
    (h : rounds step fuel a s = .ok (b, t)) : Turns step a s b t := by
  induction fuel generalizing a s with
  | nil =>
      obtain ⟨r, u, hr, hb⟩ := bind_eq_ok h
      cases r with
      | again _ => cases hb
      | done b' =>
          cases hb
          exact .done hr
  | cons _ fuel ih =>
      obtain ⟨r, u, hr, hb⟩ := bind_eq_ok h
      cases r with
      | again a' => exact .again hr (ih hb)
      | done b' =>
          cases hb
          exact .done hr

theorem turns_of_iterate {step : α → Parser (Round α β)} {a : α} {b : β}
    (h : iterate step a s = .ok (b, t)) : Turns step a s b t := turns_of_rounds h

section Loop

variable {step : α → Parser (Round α β)} {a a' : α} {b : β}

-- A loop at `a` comes to the result `b`, however many rounds are allowed beyond those that the
-- terminals can need.
def Winds (step : α → Parser (Round α β)) (a : α) (s : Input) (b : β) (t : Input) : Prop :=
  ∀ fuel, s.rest.length ≤ fuel.length → rounds step fuel a s = .ok (b, t)

namespace Winds

theorem iterate (h : Winds step a s b t) : iterate step a s = .ok (b, t) := h s.rest (Nat.le_refl _)

theorem done (h : step a s = .ok (.done b, t)) : Winds step a s b t :=
  fun fuel _ => rounds_of_done h fuel

theorem again (h : step a s = .ok (.again a', s')) (hlt : s'.rest.length < s.rest.length)
    (behind : Winds step a' s' b t) : Winds step a s b t := by
  intro fuel hfuel
  cases fuel with
  | nil =>
      rw [List.length_nil] at hfuel
      omega
  | cons _ fuel =>
      rw [List.length_cons] at hfuel
      rw [rounds_of_again h]
      exact behind fuel (by omega)

end Winds

end Loop

end Parser

end Census.Grammar
