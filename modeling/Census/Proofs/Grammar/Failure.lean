import Census.Proofs.Grammar.Production
import Census.Proofs.Grammar.Run

namespace Census.Grammar

namespace Failure

-- The number of the token where parsing stops. Behind the last of `count` tokens, there is none.
def index (count : Nat) : Failure → Nat
  | .atEnd => count
  | .unexpected token _ => token
  | .tooDeep token => token

-- Only an existing token is refused for its kind.
def Below (count : Nat) : Failure → Prop
  | .atEnd => True
  | .unexpected token _ => token < count
  | .tooDeep token => token ≤ count

theorem Below.index_le {count : Nat} {failure : Failure} (h : failure.Below count) :
    failure.index count ≤ count := by
  cases failure with
  | atEnd => exact Nat.le_refl _
  | unexpected token expected => exact Nat.le_of_lt h
  | tooDeep token => exact h

end Failure

namespace Parser

variable {α β : Type}

-- Parsing goes on in the same text or stops at a place within it.
def Stays (p : Parser α) : Prop := ∀ s,
  match p s with
  | .ok (_, t) => t.stop = s.stop
  | .error failure => failure.Below s.stop

namespace Stays

theorem pure (a : α) : Stays (Pure.pure a) := fun _ => rfl

theorem bind {p : Parser α} {f : α → Parser β} (hp : Stays p) (hf : ∀ a, Stays (f a)) :
    Stays (p >>= f) := by
  intro s
  have hs := hp s
  simp only [Bind.bind]
  cases h : p s with
  | error failure =>
      rw [h] at hs
      exact hs
  | ok r =>
      obtain ⟨a, t⟩ := r
      rw [h] at hs
      have ht := hf a t
      rw [show t.stop = s.stop from hs] at ht
      exact ht

theorem next : Stays next := by
  intro s
  simp only [Parser.next]
  cases hs : s.rest with
  | nil => exact trivial
  | cons _ rest =>
      simp only [Input.stop, hs, List.length_cons]
      omega

theorem here : Stays here := by
  intro s
  simp only [Parser.here]
  cases s.rest with
  | nil => exact trivial
  | cons _ _ => rfl

theorem unexpected (expected : Expected) : Stays (unexpected expected : Parser α) := by
  intro s
  simp only [Parser.unexpected]
  cases hs : s.rest with
  | nil => exact trivial
  | cons _ rest =>
      simp only [Failure.Below, Input.stop, hs, List.length_cons]
      omega

theorem tooDeep : Stays (tooDeep : Parser α) := fun s => Nat.le_add_right s.index _

theorem rounds {step : α → Parser (Round α β)} (h : ∀ a, Stays (step a)) (fuel : List Terminal)
    (a : α) : Stays (rounds step fuel a) := by
  induction fuel generalizing a with
  | nil =>
      refine (h a).bind fun r => ?_
      cases r with
      | again _ => exact fun _ => trivial
      | done b => exact pure b
  | cons _ fuel ih =>
      refine (h a).bind fun r => ?_
      cases r with
      | again a => exact ih a
      | done b => exact pure b

theorem iterate {step : α → Parser (Round α β)} (h : ∀ a, Stays (step a)) (a : α) :
    Stays (iterate step a) := fun s => rounds h s.rest a s

end Stays

theorem Parallel.stays {d : Deeper} {p q : Parser α} (hd : ∀ goal, Stays (d goal))
    (h : Parallel d d p q) : Stays p := by
  induction h with
  | pure a => exact .pure a
  | bind _ _ hp hf => exact hp.bind hf
  | deeper goal => exact hd goal
  | next => exact .next
  | here => exact .here
  | ahead n => exact fun _ => rfl
  | castAhead n => exact fun _ => rfl
  | unexpected expected => exact .unexpected expected
  | atEnd => exact fun _ => trivial
  | iterate _ a hs => exact .iterate hs a

end Parser

open Grammar.Parser

theorem parse_stays (levels : Nat) (goal : Goal) : Stays (parse levels goal) := by
  induction levels generalizing goal with
  | zero => exact .tooDeep
  | succ levels ih => exact (Parallel.production goal).stays ih

-- A file is refused at one of its tokens or at its end.
theorem parseFile_below {levels : Nat} {terminals : List Terminal} {failure : Failure}
    (h : parseFile levels terminals = .error failure) : failure.Below terminals.length := by
  have hstays := Parallel.file.stays (parse_stays levels) ⟨0, terminals⟩
  unfold parseFile at h
  cases hfile : Parser.file (parse levels) ⟨0, terminals⟩ with
  | ok r =>
      rw [hfile] at h
      cases h
  | error e =>
      rw [hfile] at h hstays
      obtain rfl : e = failure := Except.error.inj h
      simpa [Input.stop] using hstays

end Census.Grammar
