import Census.Tree.Node

namespace Census.Tree

variable {α β γ : Type}

mutual

-- To prove something of all trees, prove it of a tree whose children all have it.
@[elab_as_elim]
theorem inductionOn {P : Tree α → Prop} (node : ∀ a ts, (∀ t ∈ ts, P t) → P ⟨a, ts⟩) :
    (t : Tree α) → P t
  | ⟨a, ts⟩ => node a ts (inductionOnAll node ts)

theorem inductionOnAll {P : Tree α → Prop} (node : ∀ a ts, (∀ t ∈ ts, P t) → P ⟨a, ts⟩) :
    (ts : List (Tree α)) → ∀ t ∈ ts, P t
  | [] => nofun
  | t :: ts => List.forall_mem_cons.2 ⟨inductionOn node t, inductionOnAll node ts⟩

end

theorem mapAll_eq (f : α → β) (ts : List (Tree α)) : mapAll f ts = ts.map (map f) := by
  induction ts with
  | nil => rfl
  | cons t ts ih => rw [mapAll, ih, List.map_cons]

theorem map_mk (f : α → β) (a : α) (ts : List (Tree α)) :
    map f ⟨a, ts⟩ = ⟨f a, ts.map (map f)⟩ := by
  rw [map, mapAll_eq]

theorem children_map (f : α → β) (t : Tree α) : (t.map f).children = t.children.map (map f) := by
  cases t
  rw [map_mk]

theorem label_map (f : α → β) (t : Tree α) : (t.map f).label = f t.label := by
  cases t
  rw [map_mk]

theorem map_map (f : α → β) (g : β → γ) (t : Tree α) :
    (t.map f).map g = t.map fun a => g (f a) := by
  induction t using inductionOn with
  | node a ts ih =>
      rw [map_mk, map_mk, map_mk, List.map_map]
      exact congrArg _ (List.map_congr_left ih)

theorem subtreesAll_eq (ts : List (Tree α)) : subtreesAll ts = ts.flatMap subtrees := by
  induction ts with
  | nil => rfl
  | cons t ts ih => rw [subtreesAll, ih, List.flatMap_cons]

theorem subtrees_mk (a : α) (ts : List (Tree α)) :
    subtrees ⟨a, ts⟩ = ⟨a, ts⟩ :: ts.flatMap subtrees := by
  rw [subtrees, subtreesAll_eq]

theorem self_mem_subtrees (t : Tree α) : t ∈ t.subtrees := by
  cases t
  simp [subtrees_mk]

mutual

theorem size_map (f : α → β) : (t : Tree α) → (t.map f).size = t.size
  | ⟨_, ts⟩ => by rw [map, size, size, sizeAll_map f ts]

theorem sizeAll_map (f : α → β) : (ts : List (Tree α)) → sizeAll (mapAll f ts) = sizeAll ts
  | [] => rfl
  | t :: ts => by rw [mapAll, sizeAll, sizeAll, size_map f t, sizeAll_map f ts]

end

theorem number_mk (f : UInt32 → α → β) (n : UInt32) (a : α) (ts : List (Tree α)) :
    number f n ⟨a, ts⟩ = (⟨f n a, (numberAll f (n + 1) ts).1⟩, (numberAll f (n + 1) ts).2) := rfl

theorem numberAll_cons (f : UInt32 → α → β) (n : UInt32) (t : Tree α) (ts : List (Tree α)) :
    numberAll f n (t :: ts) = ((t.number f n).1 :: (numberAll f (t.number f n).2 ts).1,
      (numberAll f (t.number f n).2 ts).2) := rfl

mutual

-- The counter goes up by one at every node.
theorem behind_number (f : UInt32 → α → β) :
    (t : Tree α) → (n : UInt32) → (t.number f n).2 = n + .ofNat t.size
  | ⟨_, ts⟩, n => by
      rw [number_mk, behind_numberAll f ts, size, Nat.add_comm, UInt32.ofNat_add, UInt32.add_assoc]
      rfl

theorem behind_numberAll (f : UInt32 → α → β) :
    (ts : List (Tree α)) → (n : UInt32) → (numberAll f n ts).2 = n + .ofNat (sizeAll ts)
  | [], n => (UInt32.add_zero n).symm
  | t :: ts, n => by
      rw [numberAll_cons, behind_number f t, behind_numberAll f ts, sizeAll, UInt32.ofNat_add,
        UInt32.add_assoc]

end

mutual

-- A change of the labels can be made before the nodes are numbered.
theorem map_number_map {δ : Type} {f : UInt32 → α → β} {g : β → δ} {h : α → γ} {k : UInt32 → γ → δ}
    (hf : ∀ n a, g (f n a) = k n (h a)) :
    (t : Tree α) → (n : UInt32) → (t.number f n).1.map g = ((t.map h).number k n).1
  | ⟨a, ts⟩, n => by rw [number_mk, map, map, number_mk, hf, mapAll_numberAll_map hf ts]

theorem mapAll_numberAll_map {δ : Type} {f : UInt32 → α → β} {g : β → δ} {h : α → γ}
    {k : UInt32 → γ → δ} (hf : ∀ n a, g (f n a) = k n (h a)) : (ts : List (Tree α)) → (n : UInt32) →
      mapAll g (numberAll f n ts).1 = (numberAll k n (mapAll h ts)).1
  | [], _ => rfl
  | t :: ts, n => by
      rw [numberAll_cons, mapAll, mapAll, numberAll_cons, map_number_map hf t,
        mapAll_numberAll_map hf ts, behind_number, behind_number, size_map]

end

mutual

theorem number_const (f : α → β) :
    (t : Tree α) → (n : UInt32) → (t.number (fun _ => f) n).1 = t.map f
  | ⟨_, ts⟩, n => by rw [number_mk, map, numberAll_const f ts]

theorem numberAll_const (f : α → β) :
    (ts : List (Tree α)) → (n : UInt32) → (numberAll (fun _ => f) n ts).1 = mapAll f ts
  | [], _ => rfl
  | t :: ts, n => by rw [numberAll_cons, mapAll, number_const f t, numberAll_const f ts]

end

theorem map_id (t : Tree α) : t.map (fun a => a) = t := by
  induction t using inductionOn with
  | node a ts ih =>
      rw [map_mk, List.map_congr_left ih, List.map_id']

theorem map_congr {f g : α → β} (t : Tree α) (h : ∀ s ∈ t.subtrees, f s.label = g s.label) :
    t.map f = t.map g := by
  induction t using inductionOn with
  | node a ts ih =>
      rw [subtrees_mk] at h
      obtain ⟨hself, hbelow⟩ := List.forall_mem_cons.1 h
      have hts : ∀ t ∈ ts, t.map f = t.map g := fun t ht =>
        ih t ht fun s hs => hbelow s (List.mem_flatMap.2 ⟨t, ht, hs⟩)
      rw [map_mk, map_mk, List.map_congr_left hts]
      exact congrArg (Tree.mk · _) hself

-- Numbering changes nothing but the labels.
theorem map_number {f : UInt32 → α → β} {g : β → γ} {h : α → γ} (hf : ∀ n a, g (f n a) = h a)
    (t : Tree α) (n : UInt32) : (t.number f n).1.map g = t.map h := by
  rw [map_number_map (k := fun _ c => c) hf, number_const, map_id]

theorem subtrees_map (f : α → β) (t : Tree α) :
    (t.map f).subtrees = t.subtrees.map (map f) := by
  induction t using inductionOn with
  | node a ts ih =>
      rw [map_mk, subtrees_mk, subtrees_mk, List.map_cons, map_mk, List.flatMap_map, List.map_flatMap]
      rw [List.flatMap_def, List.flatMap_def, List.map_congr_left ih]

-- The subtrees of a tree are what can be reached from it by going from parents to children.
theorem subtrees_induction {root : Tree α} {P : Tree α → Prop} (self : P root)
    (child : ∀ p, P p → ∀ c ∈ p.children, P c) : ∀ s ∈ root.subtrees, P s := by
  induction root using inductionOn with
  | node a ts ih =>
      intro s hs
      rw [subtrees_mk] at hs
      rcases List.mem_cons.1 hs with rfl | hs
      · exact self
      · obtain ⟨t, ht, hs⟩ := List.mem_flatMap.1 hs
        exact ih t ht (child _ self t ht) s hs

theorem mem_subtrees_trans {s t u : Tree α} (h : s ∈ t.subtrees) (h' : t ∈ u.subtrees) :
    s ∈ u.subtrees := by
  induction u using inductionOn with
  | node a ts ih =>
      rw [subtrees_mk] at h'
      rcases List.mem_cons.1 h' with rfl | h'
      · exact h
      · obtain ⟨r, hr, ht⟩ := List.mem_flatMap.1 h'
        rw [subtrees_mk]
        exact List.mem_cons_of_mem _ (List.mem_flatMap.2 ⟨r, hr, ih r hr ht⟩)

theorem mem_subtrees_of_child {c p root : Tree α} (hc : c ∈ p.children) (hp : p ∈ root.subtrees) :
    c ∈ root.subtrees := by
  refine mem_subtrees_trans ?_ hp
  cases p
  rw [subtrees_mk]
  exact List.mem_cons_of_mem _ (List.mem_flatMap.2 ⟨c, hc, c.self_mem_subtrees⟩)

-- Every subtree but the whole has a parent.
theorem parent_of_mem_subtrees {s root : Tree α} (h : s ∈ root.subtrees) :
    s = root ∨ ∃ p ∈ root.subtrees, s ∈ p.children := by
  have hall : ∀ s ∈ root.subtrees, s ∈ root.subtrees ∧
      (s = root ∨ ∃ p ∈ root.subtrees, s ∈ p.children) :=
    subtrees_induction ⟨root.self_mem_subtrees, .inl rfl⟩ fun p hp c hc =>
      ⟨mem_subtrees_of_child hc hp.1, .inr ⟨p, hp.1, hc⟩⟩
  exact (hall s h).2

end Census.Tree

-- A traversal visits the subtrees of what is pending, one tree after the other from the top down.
theorem Census.Walk.toList_eq {α : Type} (w : Walk α) :
    w.toList = w.stack.toList.reverse.flatMap Tree.subtrees := by
  rw [toList]
  split
  next h =>
    rw [next?, Option.map_eq_none_iff, Array.back?_eq_none_iff] at h
    rw [h]
    rfl
  next t v h =>
    have := next?_smaller h
    obtain ⟨rest, hw, hv⟩ := next?_eq_some h
    have hlater : v.toList = t.children.flatMap Tree.subtrees ++ rest.toList.reverse.flatMap Tree.subtrees := by
      rw [toList_eq v, hv, Array.toList_appendList, List.reverse_append, List.reverse_reverse,
        List.flatMap_append]
    change t :: v.toList = _
    rw [hlater, hw, Array.toList_push, List.reverse_concat, List.flatMap_cons]
    cases t
    rw [Tree.subtrees_mk, List.cons_append]
termination_by Tree.sizeAll w.stack.toList

theorem Census.Node.descendants_eq (node : Node) : node.descendants = node.subtrees := by
  rw [descendants, Walk.toList_eq]
  exact List.append_nil _
