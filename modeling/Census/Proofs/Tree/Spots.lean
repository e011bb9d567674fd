import Census.Proofs.Tree.Subtrees
import Mathlib.Data.List.Chain

namespace Census

-- A tree inside of another one, with the trees around it, the closest first.
structure Spot (α : Type) where
  tree : Tree α
  above : List (Tree α)

namespace Tree

variable {α : Type}

mutual

-- All subtrees in preorder, each with what is around it. The whole stands inside of `above`.
def spots (above : List (Tree α)) : Tree α → List (Spot α)
  | ⟨a, ts⟩ => ⟨⟨a, ts⟩, above⟩ :: spotsAll (⟨a, ts⟩ :: above) ts

def spotsAll (above : List (Tree α)) : List (Tree α) → List (Spot α)
  | [] => []
  | t :: ts => t.spots above ++ spotsAll above ts

end

variable {above : List (Tree α)} {t : Tree α}

theorem spotsAll_eq (above ts : List (Tree α)) : spotsAll above ts = ts.flatMap (spots above) := by
  induction ts with
  | nil => rfl
  | cons t ts ih => rw [spotsAll, ih, List.flatMap_cons]

theorem spots_mk (above : List (Tree α)) (a : α) (ts : List (Tree α)) :
    spots above ⟨a, ts⟩ = ⟨⟨a, ts⟩, above⟩ :: ts.flatMap (spots (⟨a, ts⟩ :: above)) := by
  rw [spots, spotsAll_eq]

-- The spots are those of the subtrees.
theorem spots_tree (above : List (Tree α)) (t : Tree α) :
    (t.spots above).map Spot.tree = t.subtrees := by
  induction t using inductionOn generalizing above with
  | node a ts ih =>
      rw [spots_mk, subtrees_mk, List.map_cons, List.map_flatMap, List.flatMap_def, List.flatMap_def,
        List.map_congr_left fun t ht => ih t ht _]

theorem mem_subtrees_of_spot {s : Spot α} (h : s ∈ t.spots above) : s.tree ∈ t.subtrees := by
  rw [← spots_tree above]
  exact List.mem_map_of_mem h

-- Around a spot are parents, up to the whole, and then what the whole stands inside of.
theorem spots_above {s : Spot α} (h : s ∈ t.spots above) : ∃ inner, s.above = inner ++ above ∧
    (s.tree :: inner).getLast? = some t ∧ (s.tree :: inner).IsChain fun c p => c ∈ p.children := by
  induction t using inductionOn generalizing above with
  | node a ts ih =>
      rw [spots_mk] at h
      rcases List.mem_cons.1 h with rfl | h
      · exact ⟨[], rfl, rfl, List.isChain_singleton _⟩
      · obtain ⟨t, ht, hs⟩ := List.mem_flatMap.1 h
        obtain ⟨inner, hinner, hlast, hchain⟩ := ih t ht hs
        refine ⟨inner ++ [⟨a, ts⟩], by rw [hinner, List.append_assoc, List.singleton_append],
          ?_, ?_⟩
        · rw [← List.cons_append, List.getLast?_concat]
        · rw [← List.cons_append]
          refine List.isChain_append.2 ⟨hchain, List.isChain_singleton _, fun c hc p hp => ?_⟩
          rw [hlast] at hc
          cases hc
          cases hp
          exact ht

theorem mem_above {s : Spot α} (h : s ∈ t.spots above) :
    ∀ p ∈ s.above, p ∈ t.subtrees ∨ p ∈ above := by
  induction t using inductionOn generalizing above with
  | node a ts ih =>
      rw [spots_mk] at h
      rw [subtrees_mk]
      intro p hp
      rcases List.mem_cons.1 h with rfl | h
      · exact .inr hp
      · obtain ⟨t, ht, hs⟩ := List.mem_flatMap.1 h
        rcases ih t ht hs p hp with hp | hp
        · exact .inl (List.mem_cons_of_mem _ (List.mem_flatMap.2 ⟨t, ht, hp⟩))
        · rcases List.mem_cons.1 hp with rfl | hp
          · exact .inl List.mem_cons_self
          · exact .inr hp

theorem exists_spot {s : Tree α} (above : List (Tree α)) (h : s ∈ t.subtrees) :
    ∃ spot ∈ t.spots above, spot.tree = s := by
  rw [← spots_tree above] at h
  exact List.mem_map.1 h

-- A child has its parent around it, in front of what is around the parent.
theorem spots_child {s : Spot α} (h : s ∈ t.spots above) {c : Tree α} (hc : c ∈ s.tree.children) :
    ⟨c, s.tree :: s.above⟩ ∈ t.spots above := by
  induction t using inductionOn generalizing above with
  | node a ts ih =>
      rw [spots_mk] at h ⊢
      refine List.mem_cons_of_mem _ (List.mem_flatMap.2 ?_)
      rcases List.mem_cons.1 h with rfl | h
      · refine ⟨c, hc, ?_⟩
        cases c
        rw [spots_mk]
        exact List.mem_cons_self
      · obtain ⟨t, ht, hs⟩ := List.mem_flatMap.1 h
        exact ⟨t, ht, ih t ht hs⟩

-- What is closest around a spot is a spot itself, unless it is outside of the whole.
theorem spots_parent {s : Spot α} (h : s ∈ t.spots above) :
    s = ⟨t, above⟩ ∨ ∃ p rest, s.above = p :: rest ∧ ⟨p, rest⟩ ∈ t.spots above := by
  induction t using inductionOn generalizing above with
  | node a ts ih =>
      rw [spots_mk] at h ⊢
      rcases List.mem_cons.1 h with rfl | h
      · exact .inl rfl
      · obtain ⟨t, ht, hs⟩ := List.mem_flatMap.1 h
        rcases ih t ht hs with rfl | ⟨p, rest, habove, hp⟩
        · exact .inr ⟨_, _, rfl, List.mem_cons_self⟩
        · exact .inr ⟨p, rest, habove, List.mem_cons_of_mem _ (List.mem_flatMap.2 ⟨t, ht, hp⟩)⟩

theorem subtrees_tail (t : Tree α) : t.subtrees.tail = t.children.flatMap subtrees := by
  cases t
  rw [subtrees_mk, List.tail_cons]

-- A spot lies properly inside of everything around it.
theorem mem_tail_of_above {s : Spot α} (h : s ∈ t.spots above) :
    ∀ p ∈ s.above, p ∈ above ∨ s.tree ∈ p.subtrees.tail := by
  induction t using inductionOn generalizing above with
  | node a ts ih =>
      rw [spots_mk] at h
      intro p hp
      rcases List.mem_cons.1 h with rfl | h
      · exact .inl hp
      · obtain ⟨t, ht, hs⟩ := List.mem_flatMap.1 h
        rcases ih t ht hs p hp with hp | hp
        · rcases List.mem_cons.1 hp with rfl | hp
          · rw [subtrees_tail]
            exact .inr (List.mem_flatMap.2 ⟨t, ht, mem_subtrees_of_spot hs⟩)
          · exact .inl hp
        · exact .inr hp

-- From everywhere inside of a spot, the spot is around it.
theorem exists_spot_below {s : Spot α} (h : s ∈ t.spots above) : ∀ u ∈ s.tree.subtrees,
    ∃ spot ∈ t.spots above, spot.tree = u ∧ (u = s.tree ∨ s.tree ∈ spot.above) := by
  refine subtrees_induction ⟨s, h, rfl, .inl rfl⟩ ?_
  rintro p ⟨spot, hspot, rfl, hself⟩ c hc
  refine ⟨_, spots_child hspot hc, rfl, .inr (List.mem_cons.2 ?_)⟩
  exact hself.imp_left Eq.symm

-- What a search finds around the whole is found from everywhere inside, if nothing inside fits.
theorem find?_above {p : Tree α → Bool} (hp : ∀ s ∈ t.subtrees, p s = false) :
    ∀ s ∈ t.spots above, s.above.find? p = above.find? p := by
  induction t using inductionOn generalizing above with
  | node a ts ih =>
      rw [subtrees_mk] at hp
      obtain ⟨hself, hbelow⟩ := List.forall_mem_cons.1 hp
      intro s hs
      rw [spots_mk] at hs
      rcases List.mem_cons.1 hs with rfl | hs
      · rfl
      · obtain ⟨t, ht, hs⟩ := List.mem_flatMap.1 hs
        rw [ih t ht (fun u hu => hbelow u (List.mem_flatMap.2 ⟨t, ht, hu⟩)) s hs,
          List.find?_cons_of_neg (by simp [hself])]

end Tree

end Census
