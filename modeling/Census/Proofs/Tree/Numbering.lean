import Census.Proofs.Tree.Subtrees
import Mathlib.Algebra.Group.Nat.Defs
import Mathlib.Data.List.Nodup

namespace Census

namespace Tree

variable {α β : Type}

mutual

theorem length_subtrees : (t : Tree α) → t.subtrees.length = t.size
  | ⟨_, ts⟩ => by rw [subtrees, size, List.length_cons, length_subtreesAll ts]

theorem length_subtreesAll : (ts : List (Tree α)) → (subtreesAll ts).length = sizeAll ts
  | [] => rfl
  | t :: ts => by
      rw [subtreesAll, sizeAll, List.length_append, length_subtrees t, length_subtreesAll ts]

end

theorem size_number (f : UInt32 → α → β) (t : Tree α) (n : UInt32) : (t.number f n).1.size = t.size := by
  rw [← size_map (fun _ => ()), map_number (h := fun _ => ()) fun _ _ => rfl, size_map]

mutual

-- In preorder the nodes have the numbers from the first one on.
theorem labels_number (f : UInt32 → α → β) : (t : Tree α) → (n : UInt32) →
    (t.number f n).1.subtrees.map label = (t.subtrees.map label).mapIdx fun i a => f (n + .ofNat i) a
  | ⟨a, ts⟩, n => by
      rw [number_mk, subtrees, List.map_cons, labels_numberAll f ts, subtrees, List.map_cons, List.mapIdx_cons]
      simp only [Nat.add_comm _ 1, UInt32.ofNat_add, UInt32.add_assoc]
      congr 1
      exact congrArg (f · a) (UInt32.add_zero n).symm

theorem labels_numberAll (f : UInt32 → α → β) : (ts : List (Tree α)) → (n : UInt32) →
    (subtreesAll (numberAll f n ts).1).map label =
      ((subtreesAll ts).map label).mapIdx fun i a => f (n + .ofNat i) a
  | [], _ => rfl
  | t :: ts, n => by
      rw [numberAll_cons, subtreesAll, List.map_append, labels_number f t, labels_numberAll f ts,
        behind_number, subtreesAll, List.map_append, List.mapIdx_append, List.length_map, length_subtrees]
      simp only [Nat.add_comm _ t.size, UInt32.ofNat_add, UInt32.add_assoc]

end

end Tree

namespace Node

variable {n : Nat} {node root : Node} {ts : List Node}

-- The node and what lies below it are numbered in preorder, from `n` on.
def CountedFrom (n : Nat) (node : Node) : Prop := node.subtrees.map id = List.range' n node.size

theorem countedFrom_number {t : Tree Content} (hsize : t.size < 2 ^ 32) :
    CountedFrom 0 (t.number Label.mk 0).1 := by
  have hids (labels : List Content) (hlength : labels.length < 2 ^ 32) :
      (labels.mapIdx fun i c => Label.mk (0 + .ofNat i) c).map (·.id.toNat) = List.range labels.length := by
    refine List.ext_getElem (by simp) fun i hi _ => ?_
    rw [List.length_map, List.length_mapIdx] at hi
    rw [List.getElem_map, List.getElem_mapIdx, List.getElem_range, UInt32.zero_add,
      UInt32.toNat_ofNat_of_lt' (Nat.lt_trans hi hlength)]
  have hlength : (t.subtrees.map Tree.label).length = t.size := by
    rw [List.length_map, Tree.length_subtrees]
  have hlabels := hids _ (hlength ▸ hsize)
  rw [hlength, ← Tree.labels_number, List.map_map] at hlabels
  rw [CountedFrom, Tree.size_number, ← List.range_eq_range']
  exact hlabels

-- The same for trees one behind the other.
def CountedAll (n : Nat) (ts : List Node) : Prop :=
  (Tree.subtreesAll ts).map id = List.range' n (Tree.sizeAll ts)

theorem countedFrom_mk {a : Label} :
    CountedFrom n ⟨a, ts⟩ ↔ id ⟨a, ts⟩ = n ∧ CountedAll (n + 1) ts := by
  rw [CountedFrom, Tree.subtrees, Tree.size, List.map_cons, List.range'_succ, List.cons.injEq]
  rfl

theorem countedAll_cons :
    CountedAll n (node :: ts) ↔ node.CountedFrom n ∧ CountedAll (n + node.size) ts := by
  rw [CountedAll, Tree.subtreesAll, Tree.sizeAll, List.map_append, ← List.range'_append_1]
  refine ⟨fun h => List.append_inj h ?_, fun ⟨hnode, hts⟩ => congr_arg₂ _ hnode hts⟩
  rw [List.length_map, Tree.length_subtrees, List.length_range']

theorem CountedFrom.id_eq (h : node.CountedFrom n) : node.id = n := by
  cases node
  exact (countedFrom_mk.1 h).1

theorem exists_countedFrom (h : CountedAll n ts) : ∀ t ∈ ts, ∃ m, n ≤ m ∧ t.CountedFrom m := by
  induction ts generalizing n with
  | nil => nofun
  | cons t ts ih =>
      obtain ⟨ht, hts⟩ := countedAll_cons.1 h
      refine List.forall_mem_cons.2 ⟨⟨n, Nat.le_refl n, ht⟩, fun u hu => ?_⟩
      obtain ⟨m, hm, hu⟩ := ih hts u hu
      exact ⟨m, Nat.le_trans (Nat.le_add_right n _) hm, hu⟩

theorem CountedFrom.child (h : node.CountedFrom n) {c : Node} (hc : c ∈ node.children) :
    n < c.id ∧ c.CountedFrom c.id := by
  cases node
  obtain ⟨m, hm, hcounted⟩ := exists_countedFrom (countedFrom_mk.1 h).2 c hc
  exact ⟨hcounted.id_eq ▸ hm, hcounted.id_eq.symm ▸ hcounted⟩

theorem CountedFrom.of_mem (h : root.CountedFrom n) : ∀ s ∈ root.subtrees, CountedFrom (id s) s :=
  Tree.subtrees_induction (h.id_eq.symm ▸ h) fun _ hp _ hc => (hp.child hc).2

theorem CountedFrom.id_injective (h : root.CountedFrom n) {s t : Node} (hs : s ∈ root.subtrees)
    (ht : t ∈ root.subtrees) (hid : s.id = t.id) : s = t := by
  refine List.inj_on_of_nodup_map ?_ hs ht hid
  rw [h]
  exact List.nodup_range'

theorem CountedFrom.getElem?_eq_some (h : root.CountedFrom 0) {i : Nat} :
    root.subtrees[i]? = some node ↔ node ∈ root.subtrees ∧ node.id = i := by
  have hid {j : Nat} {s : Node} (hs : root.subtrees[j]? = some s) : s.id = j := by
    have hmap : (root.subtrees.map id)[j]? = some s.id := by rw [List.getElem?_map, hs, Option.map_some]
    obtain ⟨hj, hvalue⟩ := List.getElem?_eq_some_iff.1 (h ▸ hmap)
    rw [← hvalue, List.getElem_range', Nat.zero_add, Nat.one_mul]
  refine ⟨fun hnode => ⟨List.mem_of_getElem? hnode, hid hnode⟩, ?_⟩
  rintro ⟨hmem, rfl⟩
  obtain ⟨j, hj⟩ := List.mem_iff_getElem?.1 hmem
  rw [hid hj, hj]

theorem CountedFrom.tail_sorted (h : node.CountedFrom n) :
    node.subtrees.tail.Pairwise fun s t : Node => s.id < t.id := by
  have hsorted : (node.subtrees.map id).Pairwise (· < ·) := h ▸ List.pairwise_lt_range'
  exact (List.pairwise_map.1 hsorted).sublist (List.tail_sublist _)

theorem CountedFrom.lt_of_mem_tail (h : node.CountedFrom n) {t : Node} (ht : t ∈ node.subtrees.tail) :
    node.id < t.id := by
  have hsorted : (node.subtrees.map id).Pairwise (· < ·) := h ▸ List.pairwise_lt_range'
  cases node
  rw [Tree.subtrees_mk] at hsorted ht
  exact (List.pairwise_cons.1 hsorted).1 _ (List.mem_map_of_mem ht)

-- Where the numbers go up, the first of some nodes is the one with the least number.
theorem find?_least {nodes : List Node} {p : Node → Bool}
    (hsorted : nodes.Pairwise fun s t => s.id < t.id) (d : Node) : nodes.find? p = some d ↔
      d ∈ nodes ∧ p d = true ∧ ∀ e ∈ nodes, p e = true → d.id ≤ e.id := by
  induction nodes with
  | nil => simp
  | cons s rest ih =>
      obtain ⟨hs, hrest⟩ := List.pairwise_cons.1 hsorted
      cases hp : p s with
      | false =>
          rw [List.find?_cons_of_neg (by simp [hp]), ih hrest]
          constructor
          · rintro ⟨hd, hpd, hleast⟩
            refine ⟨List.mem_cons_of_mem _ hd, hpd, List.forall_mem_cons.2 ⟨fun h => ?_, hleast⟩⟩
            simp [hp] at h
          · rintro ⟨hd, hpd, hleast⟩
            refine ⟨(List.mem_cons.1 hd).resolve_left ?_, hpd, (List.forall_mem_cons.1 hleast).2⟩
            rintro rfl
            simp [hp] at hpd
      | true =>
          rw [List.find?_cons_of_pos hp, Option.some.injEq]
          constructor
          · rintro rfl
            exact ⟨List.mem_cons_self, hp, List.forall_mem_cons.2
              ⟨fun _ => Nat.le_refl _, fun e he _ => Nat.le_of_lt (hs e he)⟩⟩
          · rintro ⟨hd, -, hleast⟩
            rcases List.mem_cons.1 hd with rfl | hd
            · rfl
            · exact absurd (hs d hd) (Nat.not_lt.2 (hleast s List.mem_cons_self hp))

-- The first descendant of a kind is the one with the least number.
theorem firstDescendant?_eq_some (h : node.CountedFrom n) (kind : NodeKind) (d : Node) :
    node.firstDescendant? kind = some d ↔ d ∈ node.descendants.tail ∧ d.kind = kind ∧
      ∀ e ∈ node.descendants.tail, e.kind = kind → d.id ≤ e.id := by
  rw [firstDescendant?, descendants_eq, find?_least h.tail_sorted]
  simp only [decide_eq_true_eq]

end Node

end Census
