import Census.Proofs.Grammar.Formed
import Census.Proofs.Grammar.Parallel

namespace Census.Grammar

variable {ts : List Terminal} {spare n i j : Nat}

theorem kindAt_take (h : i < n) : kindAt (ts.take n) i = kindAt ts i := by
  rw [kindAt, kindAt, List.getElem?_take_of_lt h]

theorem kindAt_take_of_le (h : n ≤ i) : kindAt (ts.take n) i = none := by
  rw [kindAt, List.getElem?_take_eq_none h, Option.map_none]

theorem Input.behind_take (ts : List Terminal) (n : Nat) :
    Input.behind (ts.take n) n = ⟨n, []⟩ := by
  rw [Input.behind, List.drop_eq_nil_of_le (List.length_take_le n ts)]

-- The texts of `n` terminals whose last one is refused because those behind it are missing: the
-- word of an array without its parenthesis, also if it was the type of a cast, and a separator
-- without the next word of its name.
inductive Torn (ts : List Terminal) : Nat → Prop
  | array {i : Nat} (word : kindAt ts i = some (.keyword .kwArray))
      (opens : kindAt ts (i + 1) = some (.symbol .leftParen)) : Torn ts (i + 1)
  | cast {i : Nat} (opens : kindAt ts i = some (.symbol .leftParen))
      (word : kindAt ts (i + 1) = some (.keyword .kwArray))
      (closes : kindAt ts (i + 2) = some (.symbol .rightParen)) : Torn ts (i + 2)
  | separator {i : Nat} (front : NameAt ts i)
      (separator : kindAt ts (i + 1) = some (.symbol .backslash)) (behind : NameAt ts (i + 2)) :
      Torn ts (i + 2)

namespace Parser

variable {α β : Type} {p q : Parser α} {f g : α → Parser β}

-- What follows one round of a loop.
def afterRound (step : α → Parser (Round α β)) (fuel : List Terminal) : Round α β → Parser β
  | .again a =>
      match fuel with
      | [] => fail .atEnd
      | _ :: fuel => rounds step fuel a
  | .done b => Pure.pure b

theorem rounds_eq (step : α → Parser (Round α β)) (fuel : List Terminal) (a : α) :
    rounds step fuel a = step a >>= afterRound step fuel := by
  cases fuel <;> rfl

section Ends

-- A run reaches the end of a text of `n` terminals: nothing is left of it, or more is missing.
-- Without levels to spare, what is missing may be sought too deep.
inductive Exhausted (spare n : Nat) : Except Failure (α × Input) → Prop
  | spent (a : α) : Exhausted spare n (.ok (a, ⟨n, []⟩))
  | atEnd : Exhausted spare n (.error .atEnd)
  | deep {i : Nat} (tight : spare = 0) (late : n ≤ i + 2) : Exhausted spare n (.error (.tooDeep i))

-- A run reaches that end, or it stops at a separator that is left, or at the last terminal. Behind
-- the separator, a statement may be sought, and its value is one level deeper.
inductive Stuck (spare n : Nat) : Except Failure (α × Input) → Prop
  | exhausted {outcome : Except Failure (α × Input)} (h : Exhausted spare n outcome) :
      Stuck spare n outcome
  | left (a : α) (b : Bool) {i : Nat} (hi : i + 1 = n) :
      Stuck spare n (.ok (a, ⟨i, [⟨.symbol .backslash, b⟩]⟩))
  | refused {i : Nat} (hi : i + 1 = n) (expected : Expected) :
      Stuck spare n (.error (.unexpected i expected))
  | deep {i : Nat} (tight : spare ≤ 1) (late : n ≤ i + 1) : Stuck spare n (.error (.tooDeep i))

-- What a parser does where nothing is left, and where only a separator is.
structure Orderly (spare : Nat) (p : Parser α) : Prop where
  ends (n : Nat) : Exhausted spare n (p ⟨n, []⟩)
  sticks (i : Nat) (b : Bool) : Stuck spare (i + 1) (p ⟨i, [⟨.symbol .backslash, b⟩]⟩)

theorem Exhausted.failure {failure : Failure}
    (h : Exhausted spare n (.error failure : Except Failure (α × Input))) :
    failure = .atEnd ∨ ∃ i, failure = .tooDeep i ∧ n ≤ i + 2 ∧ spare = 0 := by
  cases h with
  | atEnd => exact .inl rfl
  | deep tight late => exact .inr ⟨_, rfl, late, tight⟩

theorem Exhausted.bind {s : Input} (h : Exhausted spare n (p s)) (hf : ∀ a, Orderly spare (f a)) :
    Exhausted spare n ((p >>= f) s) := by
  generalize hp : p s = outcome at h
  cases h with
  | spent a =>
      rw [bind_of_ok hp]
      exact (hf a).ends n
  | atEnd =>
      rw [bind_of_error hp]
      exact .atEnd
  | deep tight late =>
      rw [bind_of_error hp]
      exact .deep tight late

theorem Stuck.bind {s : Input} (h : Stuck spare n (p s)) (hf : ∀ a, Orderly spare (f a)) :
    Stuck spare n ((p >>= f) s) := by
  generalize hp : p s = outcome at h
  cases h with
  | exhausted h => exact .exhausted (.bind (hp ▸ h) hf)
  | left a b hi =>
      subst hi
      rw [bind_of_ok hp]
      exact (hf a).sticks _ b
  | refused hi expected =>
      rw [bind_of_error hp]
      exact .refused hi expected
  | deep tight late =>
      rw [bind_of_error hp]
      exact .deep tight late

namespace Orderly

theorem pure (a : α) : Orderly spare (Pure.pure a) := ⟨fun _ => .spent a, fun _ b => .left a b rfl⟩

theorem atEnd : Orderly spare (fail .atEnd : Parser α) :=
  ⟨fun _ => .atEnd, fun _ _ => .exhausted .atEnd⟩

theorem next : Orderly spare next := ⟨fun _ => .atEnd, fun i _ => .exhausted (.spent i)⟩

theorem bind (hp : Orderly spare p) (hf : ∀ a, Orderly spare (f a)) : Orderly spare (p >>= f) :=
  ⟨fun n => (hp.ends n).bind hf, fun i b => (hp.sticks i b).bind hf⟩

theorem rounds {step : α → Parser (Round α β)} (h : ∀ a, Orderly spare (step a))
    (fuel : List Terminal) (a : α) : Orderly spare (rounds step fuel a) := by
  induction fuel generalizing a with
  | nil =>
      refine (h a).bind fun r => ?_
      cases r with
      | again _ => exact atEnd
      | done b => exact pure b
  | cons _ fuel ih =>
      refine (h a).bind fun r => ?_
      cases r with
      | again a => exact ih a
      | done b => exact pure b

theorem afterRound {step : α → Parser (Round α β)} (h : ∀ a, Orderly spare (step a))
    (fuel : List Terminal) (r : Round α β) : Orderly spare (afterRound step fuel r) := by
  cases r with
  | again a =>
      cases fuel with
      | nil => exact atEnd
      | cons _ fuel => exact rounds h fuel a
  | done b => exact pure b

-- Every goal finds the end, provided that it may be entered at all.
theorem parse (levels : Nat) (goal : Goal) : Orderly spare (parse (levels + spare) goal) := by
  cases hlevels : levels + spare with
  | zero =>
      exact ⟨fun n => .deep (by omega) (Nat.le_add_right n 2),
        fun i _ => .exhausted (.deep (by omega) (Nat.le_succ (i + 1)))⟩
  | succ levels =>
      refine ⟨fun n => ?_, fun i b => ?_⟩
      · cases goal <;> exact .atEnd
      · cases goal with
        | statement =>
            cases levels with
            | zero => exact .deep (by omega) (Nat.le_refl _)
            | succ _ => exact .exhausted .atEnd
        | member => exact .refused rfl _
        | switchCase => exact .refused rfl _
        | _ => exact .exhausted .atEnd

end Orderly

theorem Parallel.orderly {levels : Nat} {d : Deeper} (h : Parallel d (parse (levels + spare)) p q) :
    Orderly spare q := by
  induction h with
  | pure a => exact .pure a
  | bind _ _ hp hf => exact hp.bind hf
  | deeper goal => exact .parse levels goal
  | next => exact .next
  | atEnd => exact .atEnd
  | here => exact ⟨fun _ => .atEnd, fun i b => .left i b rfl⟩
  | unexpected expected => exact ⟨fun _ => .atEnd, fun _ _ => .refused rfl expected⟩
  | ahead | castAhead => exact ⟨fun _ => .spent _, fun _ b => .left _ b rfl⟩
  | iterate _ a hs =>
      have hrounds (fuel : List Terminal) := Orderly.rounds hs fuel a
      exact ⟨fun n => (hrounds _).ends n, fun i b => (hrounds _).sticks i b⟩

end Ends

-- What becomes of an outcome if the text ends behind its first `n` terminals: it stays the same or
-- reaches the end, unless the end tears something.
inductive Severed (ts : List Terminal) (n spare : Nat) :
    (whole severed : Except Failure (α × Input)) → Prop
  | refused (e : Failure) (severed : Except Failure (α × Input)) :
      Severed ts n spare (.error e) severed
  | same (a : α) {j : Nat} (hj : j ≤ n) :
      Severed ts n spare (.ok (a, .behind ts j)) (.ok (a, .behind (ts.take n) j))
  | exhausted (whole : Except Failure (α × Input)) {severed : Except Failure (α × Input)}
      (h : Exhausted spare n severed) : Severed ts n spare whole severed
  | torn (whole : Except Failure (α × Input)) {severed : Except Failure (α × Input)}
      (torn : Torn ts n) (stuck : Stuck spare n severed) : Severed ts n spare whole severed

-- Where terminal `i` comes next, `p` with the whole text and `q` with its first `n` terminals.
def SeversAt (ts : List Terminal) (n spare i : Nat) (p q : Parser α) : Prop :=
  Severed ts n spare (p (.behind ts i)) (q (.behind (ts.take n) i))

namespace SeversAt

theorem pure (hi : i ≤ n) (a : α) : SeversAt ts n spare i (Pure.pure a) (Pure.pure a) := .same a hi

theorem fail (e : Failure) : SeversAt ts n spare i (fail e : Parser α) q := .refused e _

theorem of_ends (hq : Orderly spare q) : SeversAt ts n spare n p q := by
  rw [SeversAt, Input.behind_take]
  exact .exhausted _ (hq.ends n)

theorem bind (hp : SeversAt ts n spare i p q)
    (hf : ∀ a j, j ≤ n → p (.behind ts i) = .ok (a, .behind ts j) →
      SeversAt ts n spare j (f a) (g a))
    (hg : ∀ a, Orderly spare (g a)) : SeversAt ts n spare i (p >>= f) (q >>= g) := by
  unfold SeversAt at hp ⊢
  generalize hwhole : p (.behind ts i) = whole, hq : q (.behind (ts.take n) i) = severed at hp
  cases hp with
  | refused e =>
      rw [bind_of_error hwhole]
      exact .refused e _
  | same a hj =>
      rw [bind_of_ok hwhole, bind_of_ok hq]
      exact hf a _ hj hwhole
  | exhausted _ h => exact .exhausted _ (.bind (hq ▸ h) hg)
  | torn _ torn stuck => exact .torn _ torn (.bind (hq ▸ stuck) hg)

theorem ite {c : Prop} [Decidable c] {p p' q q' : Parser α} (hp : SeversAt ts n spare i p p')
    (hq : SeversAt ts n spare i q q') :
    SeversAt ts n spare i (if c then p else q) (if c then p' else q') := by
  split
  · exact hp
  · exact hq

theorem next (h : i < n) : SeversAt ts n spare i next next := by
  unfold SeversAt Parser.next Input.behind
  rw [List.drop_take]
  cases hrest : ts.drop i with
  | nil => exact .refused _ _
  | cons m rest =>
      have htail : ts.drop (i + 1) = rest := by rw [← List.tail_drop, hrest, List.tail_cons]
      have htake : (m :: rest).take (n - i) = m :: (ts.take n).drop (i + 1) := by
        rw [List.drop_take, htail, ← List.take_succ_cons]
        congr 1
        omega
      rw [htake, ← htail]
      exact .same i h

theorem here (h : i < n) : SeversAt ts n spare i here here := by
  unfold SeversAt Parser.here
  cases hrest : ts.drop i with
  | nil =>
      simp only [Input.behind, hrest]
      exact .refused _ _
  | cons m rest =>
      have htake : (ts.take n).drop i = m :: rest.take (n - i - 1) := by
        rw [List.drop_take, hrest, ← List.take_succ_cons]
        congr 1
        omega
      simp only [Input.behind, hrest, htake]
      rw [← hrest, ← htake]
      exact .same i (Nat.le_of_lt h)

theorem unexpected (expected : Expected) :
    SeversAt ts n spare i (unexpected expected : Parser α) q := by
  unfold SeversAt Parser.unexpected
  split
  · exact .refused _ _
  · exact .refused _ _

-- What is seen in front of the end is the same.
theorem ahead {k : Nat} {f g : Option TokenKind → Parser β} (h : i + k < n)
    (hf : SeversAt ts n spare i (f (kindAt ts (i + k))) (g (kindAt ts (i + k)))) :
    SeversAt ts n spare i (ahead k >>= f) (ahead k >>= g) := by
  unfold SeversAt
  rw [ahead_behind, ahead_behind, kindAt_take h]
  exact hf

-- By induction on the rounds that the shorter text allows: a loop comes to what its rounds come
-- to, where `I` is what they keep.
theorem rounds {step step' : α → Parser (Round α β)} (I : α → Nat → Prop)
    (hstep : ∀ a j, j ≤ n → I a j → SeversAt ts n spare j (step a) (step' a))
    (hkeep : ∀ a j a' k, I a j → step a (.behind ts j) = .ok (.again a', .behind ts k) → I a' k)
    (hstep' : ∀ a, Orderly spare (step' a)) (fuel fuel' : List Terminal) {a : α} (hi : i ≤ n)
    (ha : I a i) :
    SeversAt ts n spare i (rounds step fuel a) (rounds step' fuel' a) := by
  induction fuel' generalizing fuel a i with
  | nil =>
      rw [rounds_eq, rounds_eq]
      refine (hstep a i hi ha).bind (fun r j hj _ => ?_) (.afterRound hstep' _)
      cases r with
      | again _ => exact .exhausted _ .atEnd
      | done b => exact .pure hj b
  | cons _ fuel' ih =>
      rw [rounds_eq, rounds_eq]
      refine (hstep a i hi ha).bind (fun r j hj hr => ?_) (.afterRound hstep' _)
      cases r with
      | done b => exact .pure hj b
      | again a' =>
          cases fuel with
          | nil => exact .fail _
          | cons _ fuel => exact ih fuel hj (hkeep a i a' j ha hr)

theorem iterate {step step' : α → Parser (Round α β)} (I : α → Nat → Prop)
    (hstep : ∀ a j, j ≤ n → I a j → SeversAt ts n spare j (step a) (step' a))
    (hkeep : ∀ a j a' k, I a j → step a (.behind ts j) = .ok (.again a', .behind ts k) → I a' k)
    (hstep' : ∀ a, Orderly spare (step' a)) {a : α} (hi : i ≤ n) (ha : I a i) :
    SeversAt ts n spare i (iterate step a) (iterate step' a) :=
  rounds I hstep hkeep hstep' _ _ hi ha

end SeversAt

end Parser

end Census.Grammar
