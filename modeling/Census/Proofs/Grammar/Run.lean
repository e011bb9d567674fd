import Census.Proofs.Grammar.Row
import Census.Grammar.File

namespace Census.Grammar

-- The number of the terminal behind the last one.
def Input.stop (s : Input) : Nat := s.index + s.rest.length

namespace Parser

variable {α β : Type} {levels room : Nat} {s : Input}

-- What a run of `p` from `s` comes to: a result with the property `Q`, further on in the same
-- text, or a failure, which is no matter of depth if there are `levels` for all of `room`.
def Run (levels room : Nat) (p : Parser α) (s : Input) (Q : α → Input → Prop) : Prop :=
  match p s with
  | .ok (a, t) => s.index ≤ t.index ∧ t.stop = s.stop ∧ Q a t
  | .error e => room ≤ levels → ∀ k, e ≠ .tooDeep k

namespace Run

variable {p : Parser α} {f : α → Parser β} {R : α → Input → Prop} {Q : β → Input → Prop}

theorem pure {a : α} (h : R a s) : Run levels room (Pure.pure a) s R := ⟨Nat.le_refl _, rfl, h⟩

theorem of_ok {a : α} {t : Input} (h : Run levels room p s R) (hok : p s = .ok (a, t)) :
    s.index ≤ t.index ∧ t.stop = s.stop ∧ R a t := by
  rw [Run, hok] at h
  exact h

theorem bind (hp : Run levels room p s R)
    (hf : ∀ a t, s.index ≤ t.index → t.stop = s.stop → R a t → Run levels room (f a) t Q) :
    Run levels room (p >>= f) s Q := by
  simp only [Run, Bind.bind] at hp ⊢
  cases h : p s with
  | error e =>
      rw [h] at hp
      exact hp
  | ok r =>
      rw [h] at hp
      obtain ⟨a, t⟩ := r
      obtain ⟨hle, hstop, hR⟩ := hp
      have hrun := hf a t hle hstop hR
      simp only [Run] at hrun ⊢
      cases hq : f a t with
      | error e =>
          rw [hq] at hrun
          exact hrun
      | ok r =>
          rw [hq] at hrun
          exact ⟨Nat.le_trans hle hrun.1, hrun.2.1.trans hstop, hrun.2.2⟩

theorem mono {Q' : β → Input → Prop} {q : Parser β} (h : Run levels room q s Q)
    (hq : ∀ b t, s.index ≤ t.index → t.stop = s.stop → Q b t → Q' b t) :
    Run levels room q s Q' := by
  simp only [Run] at h ⊢
  cases hs : q s with
  | error e =>
      rw [hs] at h
      exact h
  | ok r =>
      rw [hs] at h
      exact ⟨h.1, h.2.1, hq _ _ h.1 h.2.1 h.2.2⟩

theorem map {g : α → β} (h : Run levels room p s fun a t => Q (g a) t) :
    Run levels room (g <$> p) s Q := h.bind fun _ _ _ _ ha => .pure ha

theorem ite {c : Prop} [Decidable c] {p q : Parser α} (hp : Run levels room p s R)
    (hq : Run levels room q s R) : Run levels room (if c then p else q) s R := by
  split
  · exact hp
  · exact hq

theorem atEnd : Run levels room (fail .atEnd : Parser α) s R := fun _ _ => by simp

theorem unexpected (expected : Expected) :
    Run levels room (unexpected expected : Parser α) s R := by
  simp only [Run, Parser.unexpected]
  cases s.rest with
  | nil => exact fun _ _ => by simp
  | cons _ _ => exact fun _ _ => by simp

-- Looking ahead takes nothing.
theorem ahead {n : Nat} {f : Option TokenKind → Parser β}
    (hf : ∀ kind, Run levels room (f kind) s Q) : Run levels room (ahead n >>= f) s Q :=
  hf _

-- Where the outcome matters.
theorem looking {n : Nat} {f : Option TokenKind → Parser β}
    (hf : Run levels room (f ((s.rest[n]?).map (·.kind))) s Q) :
    Run levels room (Parser.ahead n >>= f) s Q :=
  hf

theorem castAhead {n : Nat} {f : Bool → Parser β}
    (hf : ∀ found, Run levels room (f found) s Q) : Run levels room (castAhead n >>= f) s Q :=
  hf _

theorem here {f : Nat → Parser β} (hf : Run levels room (f s.index) s Q) :
    Run levels room (here >>= f) s Q := by
  simp only [Run, Bind.bind, Parser.here] at hf ⊢
  cases s.rest with
  | nil => exact fun _ _ => by simp
  | cons _ _ => exact hf

-- The number of a terminal that was taken.
def Took (s : Input) (i : Nat) (t : Input) : Prop := i = s.index ∧ t.index = s.index + 1

theorem next : Run levels room next s (Took s) := by
  simp only [Run, Parser.next]
  cases hs : s.rest with
  | nil => exact fun _ _ => by simp
  | cons _ rest =>
      refine ⟨Nat.le_succ _, ?_, rfl, rfl⟩
      simp only [Input.stop, hs, List.length_cons]
      omega

theorem accept {kind : TokenKind} {f : Option Nat → Parser β}
    (some : ∀ t, t.stop = s.stop → t.index = s.index + 1 →
      Run levels room (f (some s.index)) t Q)
    (none : Run levels room (f none) s Q) : Run levels room (accept kind >>= f) s Q := by
  have h : Run levels room (Parser.accept kind) s fun o t =>
      o = .some s.index ∧ t.index = s.index + 1 ∨ o = .none ∧ t = s :=
    ahead fun _ => .ite
      (next.bind fun i t _ _ ht => .pure (.inl ⟨congrArg Option.some ht.1, ht.2⟩))
      (.pure (.inr ⟨rfl, rfl⟩))
  apply h.bind
  intro o t _ hstop ht
  rcases ht with ⟨rfl, ht⟩ | ⟨rfl, rfl⟩
  · exact some t hstop ht
  · exact none

-- Where nothing depends on whether the terminal was there.
theorem skip {kind : TokenKind} {f : Option Nat → Parser β}
    (hf : ∀ o t, s.index ≤ t.index → t.stop = s.stop → Run levels room (f o) t Q) :
    Run levels room (Parser.accept kind >>= f) s Q :=
  accept (fun t hstop ht => hf _ t (by omega) hstop) (hf _ s (Nat.le_refl _) rfl)

theorem expect {kind : TokenKind} {expected : Expected} :
    Run levels room (expect kind expected) s (Took s) := ahead fun _ => .ite next (unexpected _)

theorem terminator : Run levels room terminator s (Took s) := by
  apply ahead
  intro kind
  split
  · exact next
  · exact next
  · exact unexpected _

theorem rounds {step : α → Parser (Round α β)} {I : α → Input → Prop}
    (hstep : ∀ a t, s.index ≤ t.index → t.stop = s.stop → I a t →
      Run levels room (step a) t fun
        | .again a => I a
        | .done b => Q b)
    (fuel : List Terminal) {a : α} {t : Input} (hle : s.index ≤ t.index) (hstop : t.stop = s.stop)
    (ha : I a t) : Run levels room (rounds step fuel a) t Q := by
  induction fuel generalizing a t with
  | nil =>
      apply (hstep a t hle hstop ha).bind
      intro r u _ _ hr
      cases r with
      | again _ => exact atEnd
      | done _ => exact .pure hr
  | cons _ fuel ih =>
      apply (hstep a t hle hstop ha).bind
      intro r u hle' hstop' hr
      cases r with
      | again _ => exact ih (Nat.le_trans hle hle') (hstop'.trans hstop) hr
      | done _ => exact .pure hr

-- A loop keeps what every round keeps.
theorem iterate {step : α → Parser (Round α β)} (I : α → Input → Prop) {a : α} (ha : I a s)
    (hstep : ∀ a t, s.index ≤ t.index → t.stop = s.stop → I a t →
      Run levels room (step a) t fun
        | .again a => I a
        | .done b => Q b) : Run levels room (iterate step a) s Q :=
  rounds hstep s.rest (Nat.le_refl _) rfl ha

end Run

end Parser

end Census.Grammar
