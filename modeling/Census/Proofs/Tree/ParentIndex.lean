import Census.Proofs.Tree.Numbering
import Census.Proofs.Tree.Spots
import Census.Tree.ParentIndex

namespace Census

def Spot.parentId? (s : Spot Label) : Option Nat := s.above.head?.map Node.id

namespace ParentIndex

variable {index : ParentIndex} {above ts : List Node} {node root : Node} {n : Nat}

-- The tables are filled up to some number.
def Filled (n : Nat) (index : ParentIndex) : Prop := index.nodes.size = n ∧ index.parents.size = n

-- The tables with the entries of some spots behind those that are there.
def extended (index : ParentIndex) (spots : List (Spot Label)) : ParentIndex where
  nodes := index.nodes ++ (spots.map Spot.tree).toArray
  parents := index.parents ++ (spots.map Spot.parentId?).toArray

theorem extended_append (ss ts : List (Spot Label)) :
    index.extended (ss ++ ts) = (index.extended ss).extended ts := by
  simp only [extended, List.map_append, Array.append_assoc, List.append_toArray]

theorem Filled.extended (h : index.Filled n) (spots : List (Spot Label)) :
    (index.extended spots).Filled (n + spots.length) := by
  constructor
  · simp [ParentIndex.extended, h.1]
  · simp [ParentIndex.extended, h.2]

theorem resized_push {α : Type} (entries : Array α) (filler a : α) :
    (resized entries (entries.size + 1) filler).setIfInBounds entries.size a = entries.push a := by
  apply Array.ext'
  simp [resized]

-- The node that is due takes the first slot behind the entries that are there.
theorem enter_next (h : index.Filled n) (hid : node.id = n) :
    index.enter (above.head?.map Node.id) node = index.extended [⟨node, above⟩] := by
  obtain ⟨hnodes, hparents⟩ := h
  rw [enter, hid]
  congr 1
  · rw [← hnodes, resized_push]
    rfl
  · rw [← hparents, resized_push]
    rfl

mutual

-- A visit enters a numbered tree in preorder.
theorem visit_eq : (t : Node) → (above : List Node) → {index : ParentIndex} → {n : Nat} →
    index.Filled n → t.CountedFrom n →
      index.visit (above.head?.map Node.id) t = index.extended (t.spots above)
  | ⟨a, ts⟩, above, index, n, hfilled, hcount => by
      obtain ⟨hid, hbelow⟩ := Node.countedFrom_mk.1 hcount
      rw [visit, enter_next hfilled hid, Tree.spots]
      exact (visitAll_eq ts (⟨a, ts⟩ :: above) (hfilled.extended [_]) hbelow).trans
        (extended_append [_] _).symm

theorem visitAll_eq : (ts : List Node) → (above : List Node) → {index : ParentIndex} → {n : Nat} →
    index.Filled n → Node.CountedAll n ts →
      index.visitAll (above.head?.map Node.id) ts = index.extended (Tree.spotsAll above ts)
  | [], _, index, _, _, _ => by
      simp [visitAll, extended, Tree.spotsAll]
  | t :: ts, above, index, n, hfilled, hcount => by
      obtain ⟨ht, hts⟩ := Node.countedAll_cons.1 hcount
      have hlength : (t.spots above).length = t.size := by
        rw [← List.length_map, Tree.spots_tree, Tree.length_subtrees]
      rw [visitAll, visit_eq t above hfilled ht, Tree.spotsAll, extended_append]
      exact visitAll_eq ts above (hfilled.extended _) (hlength ▸ hts)

end

theorem ofTree_eq (h : root.CountedFrom 0) : ofTree root = empty.extended (root.spots []) := by
  have hfilled : empty.Filled 0 := ⟨rfl, rfl⟩
  exact visit_eq root [] hfilled h

section Counted

variable (h : root.CountedFrom 0) {s : Spot Label} {p c : Node}
include h

theorem node?_ofTree (i : Nat) : (ofTree root).node? i = root.subtrees[i]? := by
  rw [ofTree_eq h, node?, extended, Tree.spots_tree]
  simp [empty]

theorem node?_eq_some {i : Nat} :
    (ofTree root).node? i = some node ↔ node ∈ root.subtrees ∧ node.id = i := by
  rw [node?_ofTree h, h.getElem?_eq_some]

theorem getElem?_spots (hs : s ∈ root.spots []) : (root.spots [])[Node.id s.tree]? = some s := by
  obtain ⟨i, hi⟩ := List.mem_iff_getElem?.1 hs
  have htree : root.subtrees[i]? = some s.tree := by
    rw [← Tree.spots_tree [], List.getElem?_map, hi, Option.map_some]
  rw [(h.getElem?_eq_some.1 htree).2, hi]

theorem parentId?_of_spot (hs : s ∈ root.spots []) :
    (ofTree root).parentId? (Node.id s.tree) = s.parentId? := by
  rw [ofTree_eq h, parentId?, extended]
  simp [empty, getElem?_spots h hs]

theorem parent?_of_spot (hs : s ∈ root.spots []) : (ofTree root).parent? s.tree = s.above.head? := by
  rw [parent?, parentId?_of_spot h hs, Spot.parentId?]
  rcases Tree.spots_parent hs with rfl | ⟨p, rest, habove, hp⟩
  · rfl
  · rw [habove]
    exact (node?_eq_some h).2 ⟨Tree.mem_subtrees_of_spot hp, rfl⟩

-- Numbers fall from a node to its parent, so a node has no more ancestors than its number says.
theorem length_above_le : ∀ {above : List Node} {node : Node},
    ⟨node, above⟩ ∈ root.spots [] → above.length ≤ node.id := by
  intro above
  induction above with
  | nil => exact fun _ => Nat.zero_le _
  | cons p rest ih =>
      intro node hs
      have hp : ⟨p, rest⟩ ∈ root.spots [] := by
        rcases Tree.spots_parent hs with heq | ⟨_, _, habove, hp⟩
        · cases heq
        · cases habove
          exact hp
      have hbelow := (Tree.mem_tail_of_above hs p List.mem_cons_self).resolve_left List.not_mem_nil
      have hlt := (h.of_mem p (Tree.mem_subtrees_of_spot hp)).lt_of_mem_tail hbelow
      exact Nat.lt_of_le_of_lt (ih hp) hlt

theorem ancestorsWithin_of_spot : ∀ {n : Nat} {s : Spot Label}, s ∈ root.spots [] →
    s.above.length ≤ n → (ofTree root).ancestorsWithin n s.tree = s.above := by
  intro n
  induction n with
  | zero => exact fun _ hn => (List.length_eq_zero_iff.1 (Nat.le_zero.1 hn)).symm
  | succ n ih =>
      intro s hs hn
      rw [ancestorsWithin, parent?_of_spot h hs]
      rcases Tree.spots_parent hs with rfl | ⟨p, rest, habove, hp⟩
      · rfl
      · rw [habove] at hn ⊢
        exact congrArg (p :: ·) (ih hp (Nat.le_of_succ_le_succ hn))

theorem ancestors_of_spot (hs : s ∈ root.spots []) : (ofTree root).ancestors s.tree = s.above :=
  ancestorsWithin_of_spot h hs (length_above_le h hs)

theorem parentId?_of_child (hp : p ∈ root.subtrees) (hc : c ∈ p.children) :
    (ofTree root).parentId? c.id = some p.id := by
  obtain ⟨s, hs, rfl⟩ := Tree.exists_spot [] hp
  exact parentId?_of_spot h (Tree.spots_child hs hc)

theorem parent?_of_child (hp : p ∈ root.subtrees) (hc : c ∈ p.children) :
    (ofTree root).parent? c = some p := by
  rw [parent?, parentId?_of_child h hp hc]
  exact (node?_eq_some h).2 ⟨hp, rfl⟩

theorem parentId?_root : (ofTree root).parentId? root.id = none := by
  have hself : ⟨root, []⟩ ∈ root.spots [] := by
    cases root
    rw [Tree.spots_mk]
    exact List.mem_cons_self
  exact parentId?_of_spot h hself

theorem mem_ancestors (hc : c ∈ root.subtrees) :
    p ∈ (ofTree root).ancestors c ↔ p ∈ root.subtrees ∧ c ∈ p.subtrees.tail := by
  constructor
  · intro hmem
    obtain ⟨s, hs, rfl⟩ := Tree.exists_spot [] hc
    rw [ancestors_of_spot h hs] at hmem
    exact ⟨(Tree.mem_above hs p hmem).resolve_right List.not_mem_nil,
      (Tree.mem_tail_of_above hs p hmem).resolve_left List.not_mem_nil⟩
  · rintro ⟨hp, hbelow⟩
    have hlt := (h.of_mem p hp).lt_of_mem_tail hbelow
    obtain ⟨s, hs, rfl⟩ := Tree.exists_spot [] hp
    obtain ⟨spot, hspot, rfl, hself | habove⟩ := Tree.exists_spot_below hs c (List.mem_of_mem_tail hbelow)
    · rw [hself] at hlt
      exact absurd hlt (Nat.lt_irrefl _)
    · rwa [ancestors_of_spot h hspot]

theorem ancestors_chain (hc : c ∈ root.subtrees) : (c :: (ofTree root).ancestors c).getLast? = some root ∧
    (c :: (ofTree root).ancestors c).IsChain
      fun c p => c ∈ p.children ∧ (ofTree root).parent? c = some p := by
  obtain ⟨s, hs, rfl⟩ := Tree.exists_spot [] hc
  obtain ⟨inner, hinner, hlast, hchain⟩ := Tree.spots_above hs
  rw [List.append_nil] at hinner
  rw [ancestors_of_spot h hs]
  subst hinner
  refine ⟨hlast, hchain.imp_of_mem_tail_imp fun c p _ hp hcp => ⟨hcp, parent?_of_child h ?_ hcp⟩⟩
  exact (Tree.mem_above hs p hp).resolve_right List.not_mem_nil

end Counted

end ParentIndex

end Census
