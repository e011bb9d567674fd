import Census.Grammar.Draft

namespace Census.Grammar

-- Whether a draft is a property with the given type as its first part.
def Draft.Typed (hint draft : Draft) : Prop :=
  draft.label.kind = .property ∧ ∃ rest, draft.children = hint :: rest

-- How a later variable of a property declaration comes by its type: it repeats what the first
-- variable holds, and nothing but variables of the same type stands between the two.
structure Lent (before : List Draft) (o : Outline) (hint : Draft) : Prop where
  property : o.kind = .property
  type : hint.label.kind = .typeHint
  earlier : hint.last < o.first
  lender : ∃ older first between, before = older ++ first :: between ∧
    (∀ d ∈ first :: between, hint.Typed d) ∧ first.first ≤ hint.first ∧ hint.last ≤ first.last

-- The token from which on the parts of a node stand. The parts of a node with documentation stand
-- behind the token that the documentation belongs to.
def Outline.inside (o : Outline) : Nat := o.doc.elim o.first fun _ => o.first + 1

theorem Outline.first_le_inside (o : Outline) : o.first ≤ o.inside := by
  unfold inside
  cases o.doc with
  | none => exact Nat.le_refl _
  | some _ => exact Nat.le_succ _

-- Drafts that stand one behind the other, from token `lo` on and before token `hi`, each with
-- the rows of its own parts inside. `before` are the drafts in front of them in the same list.
inductive Row : (before : List Draft) → (lo hi : Nat) → List Draft → Prop
  | nil {before : List Draft} {lo hi : Nat} (le : lo ≤ hi) : Row before lo hi []
  | cons {before : List Draft} {lo hi : Nat} {o : Outline} {parts rest : List Draft}
      (ge : lo ≤ o.first) (le : o.first ≤ o.last) (inner : Row [] o.inside (o.last + 1) parts)
      (outer : Row (before ++ [⟨o, parts⟩]) (o.last + 1) hi rest) :
      Row before lo hi (⟨o, parts⟩ :: rest)
  | lent {before : List Draft} {hint : Draft} {lo hi : Nat} {o : Outline} {parts rest : List Draft}
      (ge : lo ≤ o.first) (le : o.first ≤ o.last) (lent : Lent before o hint)
      (own : Row [] hint.first (hint.last + 1) [hint])
      (inner : Row [] o.inside (o.last + 1) parts)
      (outer : Row (before ++ [⟨o, hint :: parts⟩]) (o.last + 1) hi rest) :
      Row before lo hi (⟨o, hint :: parts⟩ :: rest)

-- A draft that lies from token `lo` on and before token `hi`.
def Sits (lo hi : Nat) (d : Draft) : Prop := Row [] lo hi [d]

theorem Lent.behind {before : List Draft} {o : Outline} {hint : Draft} (h : Lent before o hint)
    (more : List Draft) : Lent (more ++ before) o hint := by
  obtain ⟨older, first, between, hb, ht, hl⟩ := h.lender
  exact { h with
    lender := ⟨more ++ older, first, between, by rw [hb, List.append_assoc], ht, hl⟩ }

namespace Row

variable {before xs ys : List Draft} {lo mid hi : Nat}

theorem le (h : Row before lo hi xs) : lo ≤ hi := by
  induction h with
  | nil h => exact h
  | cons h₁ h₂ _ _ _ ih => omega
  | lent h₁ h₂ _ _ _ _ _ _ ih => omega

theorem mono (h : Row before lo hi xs) {lo' hi' : Nat} (hlo : lo' ≤ lo) (hhi : hi ≤ hi') :
    Row before lo' hi' xs := by
  induction h generalizing lo' with
  | nil h => exact .nil (by omega)
  | cons h₁ h₂ inner _ _ ih => exact .cons (by omega) h₂ inner (ih (Nat.le_refl _) hhi)
  | lent h₁ h₂ hl own inner _ _ _ ih =>
      exact .lent (by omega) h₂ hl own inner (ih (Nat.le_refl _) hhi)

-- More drafts in front change nothing.
theorem behind (h : Row before lo hi xs) (more : List Draft) : Row (more ++ before) lo hi xs := by
  induction h with
  | nil h => exact .nil h
  | cons h₁ h₂ inner _ _ ih => exact .cons h₁ h₂ inner (by rw [List.append_assoc]; exact ih)
  | lent h₁ h₂ hl own inner _ _ _ ih =>
      exact .lent h₁ h₂ (hl.behind more) own inner (by rw [List.append_assoc]; exact ih)

theorem append_of (h : Row before lo mid xs) (h' : Row (before ++ xs) mid hi ys) :
    Row before lo hi (xs ++ ys) := by
  induction h with
  | nil h => exact Row.mono (by simpa using h') h (Nat.le_refl _)
  | cons h₁ h₂ inner _ _ ih =>
      exact .cons h₁ h₂ inner (ih (by simpa [List.append_assoc] using h'))
  | lent h₁ h₂ hl own inner _ _ _ ih =>
      exact .lent h₁ h₂ hl own inner (ih (by simpa [List.append_assoc] using h'))

theorem append {mid' : Nat} (h : Row [] lo mid xs) (h' : Row [] mid' hi ys) (hle : mid ≤ mid') :
    Row [] lo hi (xs ++ ys) :=
  h.append_of (by simpa using (h'.mono hle (Nat.le_refl _)).behind xs)

-- A row ends with its last draft.
theorem through_last (h : Row before lo hi xs) :
    Row before lo ((xs.getLast?.map fun d => d.last + 1).getD lo) xs ∧
      (xs.getLast?.map fun d => d.last + 1).getD lo ≤ hi := by
  induction h with
  | nil h => exact ⟨.nil (Nat.le_refl _), h⟩
  | @cons _ _ _ o parts rest h₁ h₂ inner outer _ ih =>
      cases rest with
      | nil => exact ⟨.cons h₁ h₂ inner (.nil (Nat.le_refl _)), outer.le⟩
      | cons d rest => exact ⟨.cons h₁ h₂ inner ih.1, ih.2⟩
  | @lent _ _ _ _ o parts rest h₁ h₂ hl own inner outer _ _ ih =>
      cases rest with
      | nil => exact ⟨.lent h₁ h₂ hl own inner (.nil (Nat.le_refl _)), outer.le⟩
      | cons d rest => exact ⟨.lent h₁ h₂ hl own inner ih.1, ih.2⟩

-- A row right behind token `mark`, and the last token of the two together.
theorem ending {mark : Nat} (h : Row [] lo hi xs) (hlo : lo = mark + 1) :
    Row [] lo ((xs.getLast?.map Draft.last).getD mark + 1) xs ∧
      mark ≤ (xs.getLast?.map Draft.last).getD mark ∧
      (xs.getLast?.map Draft.last).getD mark < hi := by
  have hlast : (xs.getLast?.map fun d => d.last + 1).getD lo =
      (xs.getLast?.map Draft.last).getD mark + 1 := by
    subst hlo
    cases xs.getLast? with
    | none => rfl
    | some d => rfl
  obtain ⟨hrow, hhi⟩ := h.through_last
  rw [hlast] at hrow hhi
  have hle := hrow.le
  exact ⟨hrow, by omega, hhi⟩

theorem split (h : Row before lo hi (xs ++ ys)) :
    ∃ mid, Row before lo mid xs ∧ Row (before ++ xs) mid hi ys := by
  induction xs generalizing before lo with
  | nil => exact ⟨lo, .nil (Nat.le_refl _), by simpa using h⟩
  | cons d xs ih =>
      rw [List.append_cons]
      cases h with
      | cons ge le inner outer =>
          obtain ⟨mid, hxs, hys⟩ := ih outer
          exact ⟨mid, .cons ge le inner hxs, hys⟩
      | lent ge le lent own inner outer =>
          obtain ⟨mid, hxs, hys⟩ := ih outer
          exact ⟨mid, .lent ge le lent own inner hxs, hys⟩

theorem head_bounds {d : Draft} (h : Row before lo hi (d :: xs)) :
    lo ≤ d.first ∧ d.first ≤ d.last ∧ Row (before ++ [d]) (d.last + 1) hi xs := by
  cases h with
  | cons ge le _ outer => exact ⟨ge, le, outer⟩
  | lent ge le _ _ _ outer => exact ⟨ge, le, outer⟩

theorem mem_bounds (h : Row before lo hi xs) {d : Draft} (hd : d ∈ xs) :
    lo ≤ d.first ∧ d.first ≤ d.last ∧ d.last < hi := by
  obtain ⟨older, later, rfl⟩ := List.append_of_mem hd
  obtain ⟨mid, hfront, hrest⟩ := h.split
  obtain ⟨ge, le, outer⟩ := hrest.head_bounds
  exact ⟨Nat.le_trans hfront.le ge, le, outer.le⟩

-- The drafts of a row keep their order.
theorem pairwise (h : Row before lo hi xs) : xs.Pairwise fun a b => a.last < b.first := by
  induction xs generalizing before lo with
  | nil => exact .nil
  | cons d xs ih =>
      obtain ⟨-, -, outer⟩ := h.head_bounds
      exact .cons (fun e he => (outer.mem_bounds he).1) (ih outer)

theorem head_le (h : Row before lo hi xs) {d e : Draft} (hd : xs.head? = some d) (he : e ∈ xs) :
    d.first ≤ e.first := by
  obtain ⟨rest, rfl⟩ := List.head?_eq_some_iff.1 hd
  obtain ⟨-, hle, outer⟩ := h.head_bounds
  rcases List.mem_cons.1 he with rfl | he
  · exact Nat.le_refl _
  · have hb := outer.mem_bounds he
    omega

theorem le_last (h : Row before lo hi xs) {d e : Draft} (hd : xs.getLast? = some d) (he : e ∈ xs) :
    e.last ≤ d.last := by
  obtain ⟨hrow, -⟩ := h.through_last
  rw [hd] at hrow
  exact Nat.le_of_lt_succ (hrow.mem_bounds he).2.2

-- The parts of a draft are a row themselves. All lie in the draft but a type that was lent to it.
theorem parts {d : Draft} {later : List Draft} (h : Row before lo hi (d :: later)) :
    (∃ lo' hi', hi' ≤ hi ∧ Row [] lo' hi' d.children) ∧
      ∃ (hint : Option Draft) (own : List Draft), d.children = hint.toList ++ own ∧
        (∀ h ∈ hint, Lent before d.label h) ∧
        ∀ part ∈ own, d.first ≤ part.first ∧ part.first ≤ part.last ∧ part.last ≤ d.last := by
  have within {o : Outline} {parts : List Draft} (inner : Row [] o.inside (o.last + 1) parts) :
      ∀ part ∈ parts, o.first ≤ part.first ∧ part.first ≤ part.last ∧ part.last ≤ o.last :=
    fun part hp =>
      have hb := inner.mem_bounds hp
      ⟨Nat.le_trans o.first_le_inside hb.1, hb.2.1, Nat.le_of_lt_succ hb.2.2⟩
  cases h with
  | @cons _ _ _ o parts _ ge le inner outer =>
      exact ⟨⟨_, _, outer.le, inner⟩, none, parts, rfl, by simp, within inner⟩
  | @lent _ hint _ _ o parts _ ge le lent own inner outer =>
      have hearlier := Nat.lt_of_lt_of_le lent.earlier o.first_le_inside
      exact ⟨⟨_, _, outer.le, own.append inner hearlier⟩, some hint, parts, rfl,
        by simpa using lent, within inner⟩

end Row

namespace Sits

variable {lo hi : Nat} {d : Draft}

theorem bounds (h : Sits lo hi d) : lo ≤ d.first ∧ d.first ≤ d.last ∧ d.last < hi := by
  cases h with
  | cons h₁ h₂ _ outer => exact ⟨h₁, h₂, outer.le⟩
  | lent h₁ h₂ _ _ _ outer => exact ⟨h₁, h₂, outer.le⟩

theorem row (h : Sits lo hi d) : Row [] lo hi [d] := h

-- The closest room for a draft.
theorem self (h : Sits lo hi d) : Sits d.first (d.last + 1) d := by
  cases h with
  | cons _ le inner _ => exact .cons (Nat.le_refl _) le inner (.nil (Nat.le_refl _))
  | lent _ le hl own inner _ =>
      exact .lent (Nat.le_refl _) le hl own inner (.nil (Nat.le_refl _))

section Nodes

variable {kind : NodeKind} {first last a b : Nat} {image : Image} {modifiers : Modifiers}
  {parts : List Draft}

-- A node around a row of parts.
theorem node (inner : Row [] a b parts)
    (h : lo ≤ first ∧ first ≤ a ∧ b ≤ last + 1 ∧ first ≤ last ∧ last < hi) :
    Sits lo hi ⟨⟨kind, first, last, image, modifiers, none⟩, parts⟩ :=
  .cons h.1 h.2.2.2.1 (inner.mono h.2.1 h.2.2.1) (.nil h.2.2.2.2)

-- A node whose documentation belongs to a token in front of its parts.
theorem documented {doc : Nat} (inner : Row [] a b parts)
    (h : lo ≤ first ∧ first < a ∧ b ≤ last + 1 ∧ first ≤ last ∧ last < hi) :
    Sits lo hi ⟨⟨kind, first, last, image, modifiers, some doc⟩, parts⟩ :=
  .cons h.1 h.2.2.2.1 (inner.mono h.2.1 h.2.2.1) (.nil h.2.2.2.2)

end Nodes

theorem leaf {kind : NodeKind} {token : Nat} (ge : lo ≤ token) (lt : token < hi) :
    Sits lo hi (.leaf kind token) := .node (.nil (Nat.le_refl token)) (by omega)

theorem mono (h : Sits lo hi d) {lo' hi' : Nat} (hlo : lo' ≤ lo) (hhi : hi ≤ hi') :
    Sits lo' hi' d := Row.mono h hlo hhi

-- The room for a draft ends with its last token.
theorem tight (h : Sits lo hi d) : Sits lo (d.last + 1) d := h.row.through_last.1

-- An operator between two operands.
theorem joining {kind : NodeKind} {operator mid mid' : Nat} {left right : Draft}
    (hl : Sits lo mid left) (hr : Sits mid' hi right) (hle : mid ≤ mid') :
    Sits lo hi (.joining kind operator left right) := by
  have ha := hl.bounds
  have hb := hr.bounds
  exact .node (hl.self.row.append hr.tight.row (by omega)) (by omega)

end Sits

end Census.Grammar
