import Census.Proofs.Operators.Term

namespace Census.Grammar

-- How the grammar sees a word.
def Terminal.ofWord (w : Word) : Terminal := ⟨w.kind, false⟩

-- The input where the words `ws` are left, the first of them with number `i`.
def Input.ofWords (i : Nat) (ws : List Word) : Input := ⟨i, ws.map .ofWord⟩

namespace Parser

variable {α β : Type}

-- A run comes to a result with the property `Q` unless it gives up for depth.
def Yields (p : Parser α) (s : Input) (Q : α → Input → Prop) : Prop :=
  (∃ k, p s = .error (.tooDeep k)) ∨ ∃ a t, p s = .ok (a, t) ∧ Q a t

namespace Yields

variable {s : Input} {i : Nat} {w : Word} {ws : List Word} {Q : β → Input → Prop}

theorem pure {b : β} (h : Q b s) : Yields (Pure.pure b) s Q := .inr ⟨b, s, rfl, h⟩

theorem bind {p : Parser α} {f : α → Parser β} {R : α → Input → Prop} (hp : Yields p s R)
    (hf : ∀ a t, R a t → Yields (f a) t Q) : Yields (p >>= f) s Q := by
  simp only [Yields, Bind.bind]
  rcases hp with ⟨k, h⟩ | ⟨a, t, h, hR⟩
  · exact .inl ⟨k, by rw [h]⟩
  · rw [h]
    exact hf a t hR

theorem mono {p : Parser β} {R : β → Input → Prop} (hp : Yields p s R)
    (h : ∀ b t, R b t → Q b t) : Yields p s Q := by
  rcases hp with hk | ⟨b, t, hs, hR⟩
  · exact .inl hk
  · exact .inr ⟨b, t, hs, h b t hR⟩

theorem tooDeep : Yields (Parser.tooDeep : Parser β) s Q := .inl ⟨_, rfl⟩

theorem ite_neg {c : Prop} [Decidable c] {p q : Parser β} (hc : ¬ c) (h : Yields q s Q) :
    Yields (if c then p else q) s Q := by
  rwa [if_neg hc]

theorem ite_pos {c : Prop} [Decidable c] {p q : Parser β} (hc : c) (h : Yields p s Q) :
    Yields (if c then p else q) s Q := by
  rwa [if_pos hc]

theorem ahead {f : Option TokenKind → Parser β} (n : Nat)
    (h : Yields (f ((ws[n]?).map Word.kind)) (.ofWords i ws) Q) :
    Yields (Parser.ahead n >>= f) (.ofWords i ws) Q := by
  have hk : ((Input.ofWords i ws).rest[n]?).map (·.kind) = (ws[n]?).map Word.kind := by
    rw [Input.ofWords, List.getElem?_map, Option.map_map]
    rfl
  rw [← hk] at h
  exact h

-- No word of an expression names a type.
theorem castAhead {f : Bool → Parser β} (n : Nat) (h : Yields (f false) (.ofWords i ws) Q) :
    Yields (Parser.castAhead n >>= f) (.ofWords i ws) Q := by
  have hk : ((Input.ofWords i ws).rest[n]?).any (·.namesCast) = false := by
    rw [Input.ofWords, List.getElem?_map]
    cases ws[n]? <;> rfl
  rw [← hk] at h
  exact h

theorem next {f : Nat → Parser β} (h : Yields (f i) (.ofWords (i + 1) ws) Q) :
    Yields (Parser.next >>= f) (.ofWords i (w :: ws)) Q := h

-- The next word is the one that is looked for.
theorem accepted {f : Option Nat → Parser β} {kind : TokenKind} (hw : w.kind = kind)
    (h : Yields (f (some i)) (.ofWords (i + 1) ws) Q) :
    Yields (accept kind >>= f) (.ofWords i (w :: ws)) Q := by
  refine bind (R := fun o t => o = some i ∧ t = .ofWords (i + 1) ws) (ahead 0 ?_) ?_
  · rw [if_pos (by simp [hw])]
    exact .inr ⟨some i, _, rfl, rfl, rfl⟩
  · rintro o t ⟨rfl, rfl⟩
    exact h

theorem declined {f : Option Nat → Parser β} {kind : TokenKind}
    (hw : ∀ w ∈ ws.head?, w.kind ≠ kind) (h : Yields (f none) (.ofWords i ws) Q) :
    Yields (accept kind >>= f) (.ofWords i ws) Q := by
  have hk : ¬ (ws[0]?).map Word.kind = some kind := by
    cases ws with
    | nil => simp
    | cons w ws => simpa using hw w
  refine bind (R := fun o t => o = none ∧ t = .ofWords i ws) (ahead 0 ?_) ?_
  · rw [if_neg hk]
    exact pure ⟨rfl, rfl⟩
  · rintro o t ⟨rfl, rfl⟩
    exact h

theorem expect {f : Nat → Parser β} {kind : TokenKind} {expected : Expected} (hw : w.kind = kind)
    (h : Yields (f i) (.ofWords (i + 1) ws) Q) :
    Yields (Parser.expect kind expected >>= f) (.ofWords i (w :: ws)) Q := by
  refine bind (R := fun j t => j = i ∧ t = .ofWords (i + 1) ws) (ahead 0 ?_) ?_
  · rw [if_pos (by simp [hw])]
    exact .inr ⟨i, _, rfl, rfl, rfl⟩
  · rintro j t ⟨rfl, rfl⟩
    exact h

theorem terminator {f : Nat → Parser β} (h : Yields (f i) (.ofWords (i + 1) ws) Q) :
    Yields (Parser.terminator >>= f) (.ofWords i (.semicolon :: ws)) Q := h

end Yields

-- A loop at `a` comes to a result with the property `Q`, however many rounds are allowed beyond
-- those that the terminals can need.
def Loops (step : α → Parser (Round α β)) (a : α) (s : Input) (Q : β → Input → Prop) : Prop :=
  ∀ fuel, s.rest.length ≤ fuel.length → Yields (rounds step fuel a) s Q

namespace Loops

variable {step : α → Parser (Round α β)} {a : α} {s : Input} {Q : β → Input → Prop}

theorem iterate (h : Loops step a s Q) : Yields (iterate step a) s Q := h s.rest (Nat.le_refl _)

theorem done (h : Yields (step a) s fun r t => ∃ b, r = .done b ∧ Q b t) : Loops step a s Q := by
  intro fuel _
  cases fuel with
  | nil =>
      apply h.bind
      intro r t hr
      obtain ⟨b, rfl, hb⟩ := hr
      exact .pure hb
  | cons _ fuel =>
      apply h.bind
      intro r t hr
      obtain ⟨b, rfl, hb⟩ := hr
      exact .pure hb

-- One round that takes something, and the loop from there on.
theorem again (h : Yields (step a) s fun r t => ∃ a', r = .again a' ∧
    t.rest.length < s.rest.length ∧ Loops step a' t Q) : Loops step a s Q := by
  intro fuel hfuel
  cases fuel with
  | nil =>
      apply h.bind
      intro r t hr
      obtain ⟨a', rfl, hlt, -⟩ := hr
      simp only [List.length_nil] at hfuel
      omega
  | cons _ fuel =>
      apply h.bind
      intro r t hr
      obtain ⟨a', rfl, hlt, hloop⟩ := hr
      simp only [List.length_cons] at hfuel
      exact hloop fuel (by omega)

end Loops

end Parser

end Census.Grammar
