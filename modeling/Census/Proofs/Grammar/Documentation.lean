import Census.Proofs.Grammar.Formed
import Census.Proofs.Grammar.Row
import Census.Proofs.Tree.Subtrees

namespace Census.Grammar

variable {ts : List Terminal} {b lo mid hi : Nat} {o : Outline} {ds before : List Draft}

-- The tokens to which the documentation of some drafts and of all that is in them belongs.
def Draft.docs (ds : List Draft) : List Nat := (ds.flatMap Tree.subtrees).filterMap (·.label.doc)

theorem Draft.docs_cons (o : Outline) (parts rest : List Draft) :
    docs (⟨o, parts⟩ :: rest) = o.doc.toList ++ docs parts ++ docs rest := by
  rw [docs, List.flatMap_cons, Tree.subtrees_mk, List.filterMap_append, List.filterMap_cons]
  cases o.doc with
  | none => rfl
  | some first => rfl

theorem Documents.doc_eq (h : Documents ts o) : o.doc = none ∨ o.doc = some o.first := by
  cases h with
  | never _ doc => exact .inl doc
  | always _ doc => exact .inr doc
  | leading _ doc => exact .inr doc
  | following _ doc => exact .inl doc

theorem Documents.doc_eq_none (h : Documents ts o) (hkind : o.kind.isDocumented = false) :
    o.doc = none := by
  cases h with
  | never _ doc => exact doc
  | always kind _ =>
      rw [hkind] at kind
      cases kind
  | leading kind _ _ =>
      rw [NodeKind.isDocumented_of_isListed kind] at hkind
      cases hkind
  | following _ doc => exact doc

theorem Formed.docs_typeHint {hint : Draft} (h : Formed ts b hint)
    (hkind : hint.label.kind = .typeHint) : Draft.docs (hint :: ds) = Draft.docs ds := by
  obtain ⟨o, parts⟩ := hint
  obtain ⟨hmarks, hfit⟩ := h.own
  have hdoc : o.doc = none := hmarks.doc.doc_eq_none (by rw [show o.kind = .typeHint from hkind]; rfl)
  obtain rfl : parts = [] := by
    rw [show o.kind.slots = [] from congrArg NodeKind.slots hkind] at hfit
    exact List.map_eq_nil_iff.1 hfit
  rw [Draft.docs_cons, hdoc]
  rfl

-- Numbers in rising order between two bounds.
structure Rising (lo hi : Nat) (ns : List Nat) : Prop where
  ordered : ns.Pairwise (· < ·)
  bounds : ∀ n ∈ ns, lo ≤ n ∧ n < hi

namespace Rising

variable {ns ms : List Nat}

theorem nil : Rising lo hi [] := ⟨.nil, nofun⟩

theorem mono {lo' hi' : Nat} (h : Rising lo hi ns) (hlo : lo' ≤ lo) (hhi : hi ≤ hi') :
    Rising lo' hi' ns :=
  ⟨h.ordered, fun n hn => ⟨Nat.le_trans hlo (h.bounds n hn).1, Nat.lt_of_lt_of_le (h.bounds n hn).2 hhi⟩⟩

theorem append (h : Rising lo mid ns) (h' : Rising mid hi ms) (hlo : lo ≤ mid) (hhi : mid ≤ hi) :
    Rising lo hi (ns ++ ms) := by
  refine ⟨List.pairwise_append.2 ⟨h.ordered, h'.ordered, fun n hn m hm => ?_⟩, ?_⟩
  · exact Nat.lt_of_lt_of_le (h.bounds n hn).2 (h'.bounds m hm).1
  · refine List.forall_mem_append.2 ⟨?_, ?_⟩
    · exact (h.mono (Nat.le_refl lo) hhi).bounds
    · exact (h'.mono hlo (Nat.le_refl hi)).bounds

-- The token of a node stands in front of those of its parts.
theorem own (hdoc : o.doc = none ∨ o.doc = some o.first) (hle : o.first ≤ o.last)
    (h : Rising o.inside (o.last + 1) ns) : Rising o.first (o.last + 1) (o.doc.toList ++ ns) := by
  rcases hdoc with hdoc | hdoc
  · have hinside : o.inside = o.first := by rw [Outline.inside, hdoc, Option.elim_none]
    rw [hdoc, ← hinside]
    exact h
  · have hinside : o.inside = o.first + 1 := by rw [Outline.inside, hdoc, Option.elim_some]
    rw [hinside] at h
    rw [hdoc]
    have hown : Rising o.first (o.first + 1) (some o.first).toList := ⟨by simp, by simp⟩
    exact hown.append h (Nat.le_succ _) (Nat.succ_le_succ hle)

end Rising

-- In a row, no token documents two drafts.
theorem Row.rising (h : Row before lo hi ds) (hds : ∀ d ∈ ds, Formed ts b d) :
    Rising lo hi (Draft.docs ds) := by
  induction h with
  | nil => exact .nil
  | @cons before lo hi o parts rest ge le inner outer ihparts ihrest =>
      obtain ⟨hself, hrest⟩ := List.forall_mem_cons.1 hds
      have hown := Rising.own hself.own.1.doc.doc_eq le (ihparts hself.child)
      rw [Draft.docs_cons]
      exact (hown.append (ihrest hrest) (Nat.le_succ_of_le le) outer.le).mono ge (Nat.le_refl hi)
  | @lent before hint lo hi o parts rest ge le lent own inner outer ihown ihparts ihrest =>
      obtain ⟨hself, hrest⟩ := List.forall_mem_cons.1 hds
      obtain ⟨hhint, hparts⟩ := List.forall_mem_cons.1 hself.child
      have hown := Rising.own hself.own.1.doc.doc_eq le (ihparts hparts)
      rw [Draft.docs_cons, hhint.docs_typeHint lent.type]
      exact (hown.append (ihrest hrest) (Nat.le_succ_of_le le) outer.le).mono ge (Nat.le_refl hi)

-- All that is in a row stands in front of its end.
theorem Row.mem_subtrees_bounds (h : Row before lo hi ds) :
    ∀ d ∈ ds.flatMap Tree.subtrees, d.label.first ≤ d.label.last ∧ d.label.last < hi := by
  induction h with
  | nil => nofun
  | @cons before lo hi o parts rest ge le inner outer ihparts ihrest =>
      have hhi := outer.le
      intro d hd
      rw [List.flatMap_cons, Tree.subtrees_mk, List.cons_append, List.mem_cons, List.mem_append] at hd
      rcases hd with rfl | hd | hd
      · exact ⟨le, hhi⟩
      · exact (ihparts d hd).imp_right fun hlt => Nat.lt_of_lt_of_le hlt hhi
      · exact ihrest d hd
  | @lent before hint lo hi o parts rest ge le lent own inner outer ihown ihparts ihrest =>
      have hhi := outer.le
      have hearlier := lent.earlier
      intro d hd
      rw [List.flatMap_cons, Tree.subtrees_mk, List.cons_append, List.mem_cons, List.mem_append,
        List.flatMap_cons, List.mem_append] at hd
      rcases hd with rfl | (hd | hd) | hd
      · exact ⟨le, hhi⟩
      · obtain ⟨hle, hlt⟩ := ihown d (by simpa using hd)
        exact ⟨hle, by omega⟩
      · exact (ihparts d hd).imp_right fun hlt => Nat.lt_of_lt_of_le hlt hhi
      · exact ihrest d hd

end Census.Grammar
