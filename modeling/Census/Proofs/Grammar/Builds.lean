import Census.Proofs.Grammar.Rounds

namespace Census

-- What a statement or a member ends with.
def TokenKind.isStop : TokenKind → Bool
  | .symbol .semicolon | .symbol .rightBrace | .closeTag => true
  | _ => false

namespace Grammar

-- What is left of a text behind its first `i` terminals.
def Input.behind (ts : List Terminal) (i : Nat) : Input := ⟨i, ts.drop i⟩

def kindAt (ts : List Terminal) (i : Nat) : Option TokenKind := (ts[i]?).map (·.kind)

-- The last of some terminals, with the one behind them.
structure Stops (ts : List Terminal) (last j : Nat) : Prop where
  next : last + 1 = j
  kind : ∃ kind, kindAt ts last = some kind ∧ kind.isStop = true

-- No comma stands in front of terminal `i`.
def Fresh (ts : List Terminal) (i : Nat) : Prop := ∀ k, k + 1 = i → kindAt ts k ≠ some (.symbol .comma)

theorem Fresh.start (ts : List Terminal) : Fresh ts 0 := nofun

theorem Fresh.behind {ts : List Terminal} {i : Nat} {kind : TokenKind} (h : kindAt ts i = some kind)
    (hne : kind ≠ .symbol .comma) : Fresh ts (i + 1) := by
  rintro k hk hcomma
  obtain rfl := Nat.succ.inj hk
  exact hne (Option.some.inj (h.symm.trans hcomma))

theorem Stops.fresh {ts : List Terminal} {last j : Nat} (h : Stops ts last j) : Fresh ts j := by
  obtain ⟨kind, hkind, hstop⟩ := h.kind
  rw [← h.next]
  refine .behind hkind ?_
  rintro rfl
  cases hstop

namespace Parser

variable {α β : Type} {ts : List Terminal} {i : Nat}

theorem ahead_behind (ts : List Terminal) (i n : Nat) (f : Option TokenKind → Parser β) :
    (ahead n >>= f) (.behind ts i) = f (kindAt ts (i + n)) (.behind ts i) := by
  rw [ahead_bind, Input.behind, List.getElem?_drop, kindAt]

-- Whatever `p` returns where terminal `i` comes next, `Q` holds of it and of the number of the
-- terminal that comes next then.
def Builds (ts : List Terminal) (p : Parser α) (i : Nat) (Q : α → Nat → Prop) : Prop :=
  ∀ a t, p (.behind ts i) = .ok (a, t) → ∃ j, t = .behind ts j ∧ Q a j

namespace Builds

variable {p : Parser α} {f : α → Parser β} {R : α → Nat → Prop} {Q : β → Nat → Prop}

theorem pure {a : α} (h : R a i) : Builds ts (Pure.pure a) i R := by
  rintro _ _ ⟨⟩
  exact ⟨i, rfl, h⟩

theorem bind (hp : Builds ts p i R) (hf : ∀ a j, R a j → Builds ts (f a) j Q) :
    Builds ts (p >>= f) i Q := by
  intro b u h
  obtain ⟨a, t, ha, hb⟩ := bind_eq_ok h
  obtain ⟨j, rfl, hR⟩ := hp a t ha
  exact hf a j hR b u hb

theorem mono {R' : α → Nat → Prop} (h : Builds ts p i R) (hR : ∀ a j, R a j → R' a j) :
    Builds ts p i R' := by
  intro a t ha
  obtain ⟨j, rfl, hj⟩ := h a t ha
  exact ⟨j, rfl, hR a j hj⟩

theorem map {g : α → β} (h : Builds ts p i fun a j => Q (g a) j) : Builds ts (g <$> p) i Q :=
  h.bind fun _ _ ha => .pure ha

theorem ite {c : Prop} [Decidable c] {p q : Parser α} (hp : c → Builds ts p i R)
    (hq : ¬ c → Builds ts q i R) : Builds ts (if c then p else q) i R := by
  split
  · exact hp ‹_›
  · exact hq ‹_›

theorem fail (e : Failure) : Builds ts (fail e : Parser α) i R := by
  rintro _ _ ⟨⟩

theorem tooDeep : Builds ts (tooDeep : Parser α) i R := by
  rintro _ _ ⟨⟩

theorem unexpected (expected : Expected) : Builds ts (unexpected expected : Parser α) i R := by
  intro _ _ h
  unfold Parser.unexpected at h
  split at h <;> cases h

theorem here {f : Nat → Parser β} (hf : Builds ts (f i) i Q) : Builds ts (here >>= f) i Q := by
  intro b t h
  obtain ⟨a, u, ha, hb⟩ := bind_eq_ok h
  unfold Parser.here at ha
  split at ha
  · cases ha
  · cases ha
    exact hf b t hb

-- What is seen ahead is known from then on.
theorem ahead {n : Nat} {f : Option TokenKind → Parser β}
    (hf : Builds ts (f (kindAt ts (i + n))) i Q) : Builds ts (Parser.ahead n >>= f) i Q := by
  intro b t h
  rw [ahead_behind] at h
  exact hf b t h

theorem castAhead {n : Nat} {f : Bool → Parser β} (hf : ∀ found, Builds ts (f found) i Q) :
    Builds ts (Parser.castAhead n >>= f) i Q := fun b t h => hf _ b t h

-- The number of a terminal that was taken.
theorem took : Builds ts Parser.next i fun a j => a = i ∧ j = i + 1 := by
  intro a t h
  unfold Parser.next Input.behind at h
  dsimp only at h
  split at h
  · cases h
  · rename_i m rest hrest
    cases h
    have htail : ts.drop (i + 1) = rest := by rw [← List.tail_drop, hrest, List.tail_cons]
    exact ⟨i + 1, by rw [Input.behind, htail], rfl, rfl⟩

theorem next {f : Nat → Parser β} (hf : Builds ts (f i) (i + 1) Q) :
    Builds ts (Parser.next >>= f) i Q := by
  refine took.bind fun a j hj => ?_
  obtain ⟨rfl, rfl⟩ := hj
  exact hf

theorem accepted {kind : TokenKind} : Builds ts (Parser.accept kind) i fun o j =>
    kindAt ts i = some kind ∧ o = some i ∧ j = i + 1 ∨ o = none ∧ j = i :=
  .ahead (.ite (fun hkind => .next (.pure (.inl ⟨hkind, rfl, rfl⟩)))
    fun _ => .pure (.inr ⟨rfl, rfl⟩))

theorem accept {kind : TokenKind} {f : Option Nat → Parser β}
    (some : kindAt ts i = some kind → Builds ts (f (some i)) (i + 1) Q)
    (none : Builds ts (f none) i Q) : Builds ts (Parser.accept kind >>= f) i Q := by
  refine accepted.bind fun o j hj => ?_
  rcases hj with ⟨hkind, rfl, rfl⟩ | ⟨rfl, rfl⟩
  · exact some hkind
  · exact none

-- Where nothing depends on whether the terminal was there.
theorem skip {kind : TokenKind} {f : Option Nat → Parser β} (hf : ∀ o j, Builds ts (f o) j Q) :
    Builds ts (Parser.accept kind >>= f) i Q := accept (fun _ => hf _ _) (hf _ _)

theorem expect {kind : TokenKind} {expected : Expected} {f : Nat → Parser β}
    (hf : kindAt ts i = some kind → Builds ts (f i) (i + 1) Q) :
    Builds ts (Parser.expect kind expected >>= f) i Q := by
  have h : Builds ts (Parser.expect kind expected) i fun a j =>
      kindAt ts i = some kind ∧ a = i ∧ j = i + 1 :=
    .ahead (.ite (fun hkind => took.mono fun _ _ ha => ⟨hkind, ha⟩) fun _ => .unexpected _)
  refine h.bind fun a j hj => ?_
  obtain ⟨hkind, rfl, rfl⟩ := hj
  exact hf hkind

theorem terminator {f : Nat → Parser β} (hf : Stops ts i (i + 1) → Builds ts (f i) (i + 1) Q) :
    Builds ts (Parser.terminator >>= f) i Q := by
  have h : Builds ts Parser.terminator i fun a j => a = i ∧ Stops ts i j := by
    refine .ahead ?_
    split
    · rename_i hkind
      exact took.mono fun a j ha => ⟨ha.1, ha.2.symm, _, hkind, rfl⟩
    · rename_i hkind
      exact took.mono fun a j ha => ⟨ha.1, ha.2.symm, _, hkind, rfl⟩
    · exact .unexpected _
  refine h.bind fun a j hj => ?_
  obtain ⟨rfl, hstops⟩ := hj
  obtain rfl := hstops.next
  exact hf hstops

-- A loop keeps what every round keeps: by induction on the rounds that it took.
theorem iterate {step : α → Parser (Round α β)} (I : α → Nat → Prop) {a : α} (ha : I a i)
    (hstep : ∀ a i, I a i → Builds ts (step a) i fun
      | .again a => I a
      | .done b => Q b) : Builds ts (iterate step a) i Q := by
  intro b t h
  have hturns := turns_of_iterate h
  generalize hs : Input.behind ts i = s at hturns
  clear h
  induction hturns generalizing i with
  | done h =>
      subst hs
      exact hstep _ i ha _ _ h
  | again h _ ih =>
      subst hs
      obtain ⟨j, rfl, hj⟩ := hstep _ i ha _ _ h
      exact ih hj rfl

end Builds

end Parser

end Grammar

end Census
