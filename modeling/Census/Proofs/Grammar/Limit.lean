import Census.Proofs.Grammar.Production

namespace Census.Grammar

namespace Parser

variable {α β : Type}

-- Wherever `p` does not fail in one of the ways `gives`, `q` comes to the same outcome.
def RefinesBut (gives : Failure → Prop) (p q : Parser α) : Prop :=
  ∀ s, (∃ e, gives e ∧ p s = .error e) ∨ p s = q s

namespace RefinesBut

variable {gives : Failure → Prop}

theorem refl (p : Parser α) : RefinesBut gives p p := fun _ => .inr rfl

theorem trans {p q r : Parser α} (hp : RefinesBut gives p q) (hq : RefinesBut gives q r) :
    RefinesBut gives p r := by
  intro s
  rcases hp s with h | h
  · exact .inl h
  · rw [h]
    exact hq s

theorem bind {p q : Parser α} {f g : α → Parser β} (hp : RefinesBut gives p q)
    (hf : ∀ a, RefinesBut gives (f a) (g a)) : RefinesBut gives (p >>= f) (q >>= g) := by
  intro s
  simp only [Bind.bind]
  rcases hp s with ⟨e, he, h⟩ | h
  · exact .inl ⟨e, he, by rw [h]⟩
  · rw [← h]
    cases p s with
    | error e => exact .inr rfl
    | ok r => exact hf r.1 r.2

theorem rounds {step step' : α → Parser (Round α β)} (h : ∀ a, RefinesBut gives (step a) (step' a))
    (fuel : List Terminal) (a : α) : RefinesBut gives (rounds step fuel a) (rounds step' fuel a) := by
  induction fuel generalizing a with
  | nil =>
      apply (h a).bind
      intro r
      cases r with
      | again _ => exact refl _
      | done _ => exact refl _
  | cons _ fuel ih =>
      apply (h a).bind
      intro r
      cases r with
      | again a => exact ih a
      | done _ => exact refl _

theorem iterate {step step' : α → Parser (Round α β)} (h : ∀ a, RefinesBut gives (step a) (step' a))
    (a : α) : RefinesBut gives (iterate step a) (iterate step' a) := fun s => rounds h s.rest a s

end RefinesBut

theorem Parallel.refinesBut {gives : Failure → Prop} {d d' : Deeper} {p q : Parser α}
    (hd : ∀ goal, RefinesBut gives (d goal) (d' goal)) (h : Parallel d d' p q) :
    RefinesBut gives p q := by
  induction h with
  | bind _ _ hp hf => exact hp.bind hf
  | deeper goal => exact hd goal
  | iterate _ a hs => exact .iterate hs a
  | pure | next | here | ahead | castAhead | unexpected | atEnd => exact .refl _

-- Wherever `p` does not give up for depth, `q` comes to the same outcome.
def Refines (p q : Parser α) : Prop := ∀ s, (∃ k, p s = .error (.tooDeep k)) ∨ p s = q s

theorem refines_iff {p q : Parser α} :
    Refines p q ↔ RefinesBut (fun e => ∃ k, e = .tooDeep k) p q := by
  have hdeep (s : Input) : (∃ k, p s = .error (.tooDeep k)) ↔
      ∃ e, (∃ k, e = .tooDeep k) ∧ p s = .error e :=
    ⟨fun ⟨k, h⟩ => ⟨_, ⟨k, rfl⟩, h⟩, fun ⟨_, ⟨k, he⟩, h⟩ => ⟨k, he ▸ h⟩⟩
  exact forall_congr' fun s => or_congr (hdeep s) Iff.rfl

theorem Parallel.refines {d d' : Deeper} {p q : Parser α}
    (hd : ∀ goal, Refines (d goal) (d' goal)) (h : Parallel d d' p q) : Refines p q :=
  refines_iff.2 (h.refinesBut fun goal => refines_iff.1 (hd goal))

end Parser

open Grammar.Parser

-- One level more changes nothing where the levels were enough.
theorem parse_refines_succ (levels : Nat) (goal : Goal) :
    Refines (parse levels goal) (parse (levels + 1) goal) := by
  induction levels generalizing goal with
  | zero => exact fun s => .inl ⟨s.index, rfl⟩
  | succ levels ih => exact (Parallel.production goal).refines ih

-- Nor do any more levels.
theorem parse_refines_of_le {n m : Nat} (hnm : n ≤ m) (goal : Goal) :
    Refines (parse n goal) (parse m goal) := by
  induction hnm with
  | refl => exact fun _ => .inr rfl
  | step _ ih => exact refines_iff.2 ((refines_iff.1 ih).trans (refines_iff.1 (parse_refines_succ _ _)))

-- Whatever is not given up for depth is the same under every higher limit.
theorem parseFile_of_le {n m : Nat} (hnm : n ≤ m) (terminals : List Terminal)
    (h : ∀ k, parseFile n terminals ≠ .error (.tooDeep k)) :
    parseFile m terminals = parseFile n terminals := by
  unfold parseFile at h ⊢
  rcases Parallel.file.refines (parse_refines_of_le hnm) ⟨0, terminals⟩ with ⟨k, hk⟩ | hs
  · exact absurd (by rw [hk]) (h k)
  · rw [hs]

end Census.Grammar
