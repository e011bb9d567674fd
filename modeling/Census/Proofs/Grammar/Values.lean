import Census.Grammar.File
import Census.Proofs.Tree.Subtrees

namespace Census

-- Variables, numbers and strings.
def TokenKind.isValue : TokenKind → Bool
  | .variableName | .integer | .float | .string => true
  | _ => false

-- The nodes whose image is a variable, a number or a string.
def NodeKind.isValue : NodeKind → Bool
  | .variableName | .parameter | .property => true
  | .literal .integer | .literal .float | .literal .string => true
  | _ => false

theorem TokenKind.isValue_of_isName {kind : TokenKind} (h : kind.isName = true) :
    kind.isValue = false := by
  cases kind <;> first | rfl | cases h

namespace Grammar

-- The images of the values among terminals, the first of which has number `index`.
def valuesFrom (index : Nat) : List Terminal → List Image
  | [] => []
  | m :: rest =>
      (if m.kind.isValue then [.tokens index index] else []) ++ valuesFrom (index + 1) rest

def Input.values (s : Input) : List Image := valuesFrom s.index s.rest

-- Only words name a type to which a value can be cast.
def Input.Proper (s : Input) : Prop := ∀ m ∈ s.rest, m.namesCast = true → m.kind.isValue = false

theorem Input.Proper.tail {s : Input} (h : s.Proper) {m : Terminal} {rest : List Terminal}
    (hs : s.rest = m :: rest) : Input.Proper ⟨s.index + 1, rest⟩ :=
  fun n hn => h n (hs ▸ List.mem_cons_of_mem m hn)

namespace Draft

-- The images of the values in a draft, in preorder.
def values (draft : Draft) : List Image :=
  (draft.subtrees.filter (·.label.kind.isValue)).map (·.label.image)

def valuesAll (drafts : List Draft) : List Image := drafts.flatMap values

@[simp] theorem values_mk (outline : Outline) (children : List Draft) :
    values ⟨outline, children⟩ =
      (if outline.kind.isValue then [outline.image] else []) ++ valuesAll children := by
  have hbelow : ((children.flatMap Tree.subtrees).filter (·.label.kind.isValue)).map
      (·.label.image) = valuesAll children := by
    rw [List.filter_flatMap, List.map_flatMap]
    rfl
  rw [values, Tree.subtrees_mk, List.filter_cons]
  split <;> simp [*]

@[simp] theorem valuesAll_nil : valuesAll [] = [] := rfl

@[simp] theorem valuesAll_cons (d : Draft) (ds : List Draft) :
    valuesAll (d :: ds) = d.values ++ valuesAll ds := List.flatMap_cons

@[simp] theorem valuesAll_append (ds es : List Draft) :
    valuesAll (ds ++ es) = valuesAll ds ++ valuesAll es := List.flatMap_append

@[simp] theorem values_leaf (kind : NodeKind) (token : Nat) :
    (leaf kind token).values = if kind.isValue then [.tokens token token] else [] := by
  rw [leaf, values_mk, valuesAll_nil, List.append_nil]

theorem values_joining (kind : NodeKind) (h : kind.isValue = false) (operator : Nat)
    (left right : Draft) :
    (joining kind operator left right).values = left.values ++ right.values := by
  simp [joining, h]

end Draft

namespace Parser

variable {α β : Type} {s : Input}

-- Whatever `p` returns from `s` is related by `Q` to the values that it takes.
def Gives (p : Parser α) (s : Input) (Q : α → List Image → Prop) : Prop :=
  ∀ a t, s.Proper → p s = .ok (a, t) → t.Proper ∧ ∃ taken, s.values = taken ++ t.values ∧ Q a taken

namespace Gives

variable {p : Parser α} {f : α → Parser β} {R : α → List Image → Prop} {Q : β → List Image → Prop}

theorem pure {a : α} (h : R a []) : Gives (Pure.pure a) s R := by
  rintro _ _ hs ⟨⟩
  exact ⟨hs, [], rfl, h⟩

theorem bind (hp : Gives p s R)
    (hf : ∀ a t taken, R a taken → Gives (f a) t fun b more => Q b (taken ++ more)) :
    Gives (p >>= f) s Q := by
  intro b u hs h
  simp only [Bind.bind] at h
  cases hr : p s with
  | error e => rw [hr] at h; cases h
  | ok r =>
      obtain ⟨a, t⟩ := r
      rw [hr] at h
      obtain ⟨ht, taken, htaken, hR⟩ := hp a t hs hr
      obtain ⟨hu, more, hmore, hQ⟩ := hf a t taken hR b u ht h
      exact ⟨hu, taken ++ more, by rw [htaken, hmore, List.append_assoc], hQ⟩

-- What takes no value leaves no trace.
theorem plain (hp : Gives p s fun _ taken => taken = []) (hf : ∀ a t, Gives (f a) t Q) :
    Gives (p >>= f) s Q :=
  hp.bind fun a t _ htaken => by
    subst htaken
    exact hf a t

theorem mono {R' : α → List Image → Prop} (h : Gives p s R)
    (hR : ∀ a taken, R a taken → R' a taken) : Gives p s R' := by
  intro a t hs ht
  obtain ⟨hproper, taken, htaken, hQ⟩ := h a t hs ht
  exact ⟨hproper, taken, htaken, hR a taken hQ⟩

theorem map {g : α → β} (h : Gives p s fun a taken => Q (g a) taken) : Gives (g <$> p) s Q :=
  h.bind fun _ _ _ ha => .pure (by simpa using ha)

theorem ite {c : Prop} [Decidable c] {p q : Parser α} (hp : c → Gives p s R)
    (hq : ¬ c → Gives q s R) : Gives (if c then p else q) s R := by
  split
  · exact hp ‹_›
  · exact hq ‹_›

theorem proper {p : Parser α} (h : s.Proper → Gives p s R) : Gives p s R :=
  fun a t hs => h hs a t hs

theorem fail (e : Failure) : Gives (fail e : Parser α) s R := by
  rintro _ _ _ ⟨⟩

theorem unexpected (expected : Expected) : Gives (unexpected expected : Parser α) s R := by
  intro _ _ _ h
  unfold Parser.unexpected at h
  split at h <;> cases h

theorem here {f : Nat → Parser β} (hf : Gives (f s.index) s Q) : Gives (here >>= f) s Q := by
  intro b t hs h
  simp only [Bind.bind, Parser.here] at h
  cases hrest : s.rest with
  | nil =>
      rw [hrest] at h
      cases h
  | cons m rest =>
      rw [hrest] at h
      exact hf b t hs h

-- Looking ahead takes nothing, and what is seen there is known from then on.
theorem ahead {n : Nat} {f : Option TokenKind → Parser β}
    (hf : Gives (f ((s.rest[n]?).map (·.kind))) s Q) : Gives (Parser.ahead n >>= f) s Q := hf

-- The next terminal has a known kind.
theorem next {kind : TokenKind} (hkind : (s.rest[0]?).map (·.kind) = some kind) :
    Gives Parser.next s fun i taken => taken = if kind.isValue then [.tokens i i] else [] := by
  intro i t hs h
  cases hrest : s.rest with
  | nil => simp [hrest] at hkind
  | cons m rest =>
      simp only [Parser.next, hrest] at h
      cases h
      simp only [hrest, List.getElem?_cons_zero, Option.map_some, Option.some.injEq] at hkind
      refine ⟨hs.tail hrest, _, ?_, rfl⟩
      rw [Input.values, hrest, valuesFrom, hkind]
      rfl

theorem accept (kind : TokenKind) : Gives (accept kind) s fun o taken =>
    taken = if kind.isValue then (o.map fun i => Image.tokens i i).toList else [] := by
  refine .ahead (.ite (fun hkind => (next hkind).bind fun i t taken htaken => .pure ?_) fun _ => ?_)
  · rw [htaken, List.append_nil]
    rfl
  · exact .pure (by simp)

theorem expect (kind : TokenKind) (expected : Expected) : Gives (expect kind expected) s fun i taken =>
    taken = if kind.isValue then [.tokens i i] else [] :=
  .ahead (.ite next fun _ => .unexpected _)

-- A terminal that is no value.
theorem skip {kind : TokenKind} (h : kind.isValue = false) {f : Option Nat → Parser β}
    (hf : ∀ o t, Gives (f o) t Q) : Gives (Parser.accept kind >>= f) s Q :=
  plain ((accept kind).mono fun _ _ htaken => by rw [htaken, h]; rfl) hf

theorem take {kind : TokenKind} (h : kind.isValue = false) {expected : Expected}
    {f : Nat → Parser β} (hf : ∀ i t, Gives (f i) t Q) :
    Gives (Parser.expect kind expected >>= f) s Q :=
  plain ((expect kind expected).mono fun _ _ htaken => by rw [htaken, h]; rfl) hf

-- The next terminal is no value, and what stands behind it is known as before.
theorem pass {kind : TokenKind} (hkind : (s.rest[0]?).map (·.kind) = some kind)
    (h : kind.isValue = false) {f : Nat → Parser β}
    (hf : ∀ i t, t.rest = s.rest.tail → Gives (f i) t Q) : Gives (Parser.next >>= f) s Q := by
  intro b u hs hb
  cases hrest : s.rest with
  | nil => simp [hrest] at hkind
  | cons m rest =>
      simp only [hrest, List.getElem?_cons_zero, Option.map_some, Option.some.injEq] at hkind
      simp only [Bind.bind, Parser.next, hrest] at hb
      obtain ⟨hu, taken, htaken, hQ⟩ := hf s.index ⟨s.index + 1, rest⟩ (by rw [hrest]; rfl) b u
        (hs.tail hrest) hb
      refine ⟨hu, taken, ?_, hQ⟩
      rw [← htaken, Input.values, hrest, valuesFrom, hkind, h]
      rfl

theorem terminator : Gives terminator s fun _ taken => taken = [] := by
  refine .ahead ?_
  split
  · exact next ‹_›
  · exact next ‹_›
  · exact .unexpected _

theorem rounds {step : α → Parser (Round α β)} {I : α → List Image → Prop}
    (hstep : ∀ a t taken, I a taken → Gives (step a) t fun
      | .again a, more => I a (taken ++ more)
      | .done b, more => Q b (taken ++ more))
    (fuel : List Terminal) {a : α} {taken : List Image} (ha : I a taken) :
    Gives (rounds step fuel a) s fun b more => Q b (taken ++ more) := by
  induction fuel generalizing a s taken with
  | nil =>
      refine (hstep a s taken ha).bind fun r t more hr => ?_
      cases r with
      | again _ => exact .fail _
      | done _ => exact .pure (by simpa using hr)
  | cons _ fuel ih =>
      refine (hstep a s taken ha).bind fun r t more hr => ?_
      cases r with
      | again a =>
          refine (ih hr).mono fun b more' hb => ?_
          rwa [← List.append_assoc]
      | done _ => exact .pure (by simpa using hr)

-- A loop gathers what its rounds take.
theorem iterate {step : α → Parser (Round α β)} (I : α → List Image → Prop) {a : α} (ha : I a [])
    (hstep : ∀ a t taken, I a taken → Gives (step a) t fun
      | .again a, more => I a (taken ++ more)
      | .done b, more => Q b (taken ++ more)) : Gives (iterate step a) s Q := by
  intro b t hs h
  exact rounds hstep s.rest ha b t hs h

end Gives

-- Parsers whose drafts show just the values that are taken: one draft, several of them, perhaps
-- one, or several up to a closing terminal.
def Shows (p : Parser Draft) (s : Input) : Prop := Gives p s fun d taken => d.values = taken

def ShowsAll (p : Parser (List Draft)) (s : Input) : Prop :=
  Gives p s fun ds taken => Draft.valuesAll ds = taken

def ShowsAny (p : Parser (Option Draft)) (s : Input) : Prop :=
  Gives p s fun o taken => Draft.valuesAll o.toList = taken

def ShowsUpTo (p : Parser (List Draft × Nat)) (s : Input) : Prop :=
  Gives p s fun r taken => Draft.valuesAll r.1 = taken

section Lists

variable {Q : β → List Image → Prop}

theorem Shows.bind {p : Parser Draft} {f : Draft → Parser β} (hp : Shows p s)
    (hf : ∀ d t, Gives (f d) t fun b more => Q b (d.values ++ more)) : Gives (p >>= f) s Q :=
  Gives.bind hp fun d t _ hd => hd ▸ hf d t

theorem ShowsAll.bind {p : Parser (List Draft)} {f : List Draft → Parser β} (hp : ShowsAll p s)
    (hf : ∀ ds t, Gives (f ds) t fun b more => Q b (Draft.valuesAll ds ++ more)) :
    Gives (p >>= f) s Q :=
  Gives.bind hp fun ds t _ hds => hds ▸ hf ds t

theorem ShowsAny.bind {p : Parser (Option Draft)} {f : Option Draft → Parser β} (hp : ShowsAny p s)
    (hf : ∀ o t, Gives (f o) t fun b more => Q b (Draft.valuesAll o.toList ++ more)) :
    Gives (p >>= f) s Q :=
  Gives.bind hp fun o t _ ho => ho ▸ hf o t

theorem ShowsUpTo.bind {p : Parser (List Draft × Nat)} {f : List Draft × Nat → Parser β}
    (hp : ShowsUpTo p s)
    (hf : ∀ r t, Gives (f r) t fun b more => Q b (Draft.valuesAll r.1 ++ more)) :
    Gives (p >>= f) s Q :=
  Gives.bind hp fun r t _ hr => hr ▸ hf r t

end Lists

namespace Shows

theorem through {item : Parser (List Draft)} {close : Symbol} (h : ∀ t, ShowsAll item t) :
    ShowsUpTo (Parser.through close item) s := by
  refine Gives.iterate (fun items taken => Draft.valuesAll items = taken) rfl ?_
  rintro items t _ rfl
  refine .skip rfl fun o u => ?_
  cases o with
  | some last => exact .pure (by simp)
  | none => exact .here ((h u).bind fun more v => .pure (by simp))

theorem commaList {item : Parser Draft} (h : ∀ t, Shows item t) :
    ShowsAll (Parser.commaList item) s := by
  refine Gives.iterate (fun items taken => Draft.valuesAll items = taken) rfl ?_
  rintro items t _ rfl
  refine (h t).bind fun d u => .skip rfl fun o v => ?_
  cases o <;> exact .pure (by simp)

theorem closedList {item : Parser Draft} {close : Symbol} (h : ∀ t, Shows item t) :
    ShowsUpTo (Parser.closedList close item) s := by
  refine ShowsAll.bind ?_ fun ds t => .take rfl fun last u => .pure (by simp)
  refine Gives.iterate (fun items taken => Draft.valuesAll items = taken) rfl ?_
  rintro items t _ rfl
  refine .ahead (.ite (fun _ => .pure (by simp)) fun _ => ?_)
  refine (h t).bind fun d u => .skip rfl fun o v => ?_
  cases o <;> exact .pure (by simp)

end Shows

end Parser

-- The values that the result of a goal shows are those that were taken for it.
def Goal.Shows : (goal : Goal) → goal.Result → List Image → Prop
  | .statement, r, taken => Draft.valuesAll (Option.toList r) = taken
  | .member, r, taken => Draft.valuesAll r = taken
  | .branches _ condition, r, taken => r.values = condition.values ++ taken
  | .switchCase, r, taken | .expression, r, taken | .assigned, r, taken | .operands _, r, taken
  | .unary, r, taken => r.values = taken

def Deeper.Showing (d : Deeper) : Prop := ∀ goal s, Parser.Gives (d goal) s goal.Shows

end Grammar

end Census
