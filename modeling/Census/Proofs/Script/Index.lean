import Census.Proofs.Script.Span
import Census.Proofs.Tree.ParentIndex

namespace Census

-- What the numbers of the nodes, the traversals and the table of parents say of one tree.
structure Node.Indexed (root : Node) : Prop where
  descendants : root.descendants = root.subtrees
  ids : root.descendants.map Node.id = List.range root.size
  size : (ParentIndex.ofTree root).size = root.size
  node? : ∀ i node, (ParentIndex.ofTree root).node? i = some node ↔
    node ∈ root.descendants ∧ node.id = i
  node?_beyond : ∀ i, root.size ≤ i → (ParentIndex.ofTree root).node? i = none
  parentId?_root : (ParentIndex.ofTree root).parentId? root.id = none
  parentId? : ∀ node ∈ root.descendants, node ≠ root → ∃ parent ∈ root.descendants,
    (ParentIndex.ofTree root).parentId? node.id = some parent.id ∧ node ∈ parent.children ∧
      ∀ other ∈ root.descendants, node ∈ other.children → other = parent
  -- The ancestors are those above the node, each the parent of the one before it.
  ancestors : ∀ node ∈ root.descendants, ∀ p, p ∈ (ParentIndex.ofTree root).ancestors node ↔
    p ∈ root.descendants ∧ node ∈ p.descendants.tail
  nearest : ∀ node ∈ root.descendants, (node :: (ParentIndex.ofTree root).ancestors node).IsChain
    fun c p => c ∈ p.children ∧ (ParentIndex.ofTree root).parent? c = some p
  topmost : ∀ node ∈ root.descendants,
    (node :: (ParentIndex.ofTree root).ancestors node).getLast? = some root
  firstDescendant? : ∀ node ∈ root.descendants, ∀ kind d, node.firstDescendant? kind = some d ↔
    d ∈ node.descendants.tail ∧ d.kind = kind ∧
      ∀ e ∈ node.descendants.tail, e.kind = kind → d.id ≤ e.id
  firstDescendant?_none : ∀ node ∈ root.descendants, ∀ kind,
    node.firstDescendant? kind = none ↔ ∀ e ∈ node.descendants.tail, e.kind ≠ kind

open ParentIndex in
theorem Node.indexed_of_counted {root : Node} (h : root.CountedFrom 0) : root.Indexed := by
  have hids : root.subtrees.map Node.id = List.range root.size := by
    rw [List.range_eq_range']
    exact h
  have hnode? {i : Nat} {node : Node} :
      (ofTree root).node? i = some node ↔ node ∈ root.descendants ∧ node.id = i := by
    rw [descendants_eq, node?_eq_some h]
  constructor
  · exact root.descendants_eq
  · rw [root.descendants_eq, hids]
  · rw [ofTree_eq h]
    simp [ParentIndex.size, extended, empty, ← Tree.length_subtrees, ← Tree.spots_tree []]
  · exact fun _ _ => hnode?
  · intro i hi
    rw [node?_ofTree h, List.getElem?_eq_none (root.length_subtrees ▸ hi)]
  · exact parentId?_root h
  · intro node hnode hne
    rw [descendants_eq] at hnode
    obtain ⟨p, hp, hc⟩ := (Tree.parent_of_mem_subtrees hnode).resolve_left hne
    have hid := parentId?_of_child h hp hc
    refine ⟨p, root.descendants_eq ▸ hp, hid, hc, fun other hother hc' => ?_⟩
    rw [descendants_eq] at hother
    rw [parentId?_of_child h hother hc'] at hid
    exact h.id_injective hother hp (Option.some.inj hid)
  · intro node hnode p
    rw [descendants_eq] at hnode
    rw [descendants_eq, descendants_eq, mem_ancestors h hnode]
  · exact fun node hnode => (ancestors_chain h (root.descendants_eq ▸ hnode)).2
  · exact fun node hnode => (ancestors_chain h (root.descendants_eq ▸ hnode)).1
  · exact fun node hnode kind d =>
      firstDescendant?_eq_some (h.of_mem node (root.descendants_eq ▸ hnode)) kind d
  · intro node _ kind
    rw [firstDescendant?, List.find?_eq_none]
    simp only [decide_eq_true_eq]

-- The numbers, the traversals and the table of parents agree in every tree that the counter of the
-- numbers does not run over in.
theorem parse_indexed {source : String} {limit : Nat} {root : Node} (h : parse source limit = .ok root)
    (hsize : root.size < 2 ^ 32) : root.Indexed := by
  obtain ⟨drafts, -, rfl⟩ := Script.parse_ok h
  rw [Script.root, Tree.size_number] at hsize
  exact Node.indexed_of_counted (Node.countedFrom_number hsize)

-- Nodes on four levels, and the ancestors of the deepest one from the nearest up.
theorem parse_indexed_function : ∃ root, parse "<?php function f() \x7b return 1 + 2; \x7d" 256 = .ok root ∧
    root.size < 2 ^ 32 ∧ root.Indexed ∧
    ((root.firstDescendant? (.literal .integer)).map fun node =>
      ((ParentIndex.ofTree root).ancestors node).map Node.kind) =
        some [.binary, .returnStatement, .block, .functionDecl, .sourceFile] := by
  have hparses : (parse "<?php function f() \x7b return 1 + 2; \x7d" 256).toOption.any fun root =>
      root.size < 2 ^ 32 ∧ ((root.firstDescendant? (.literal .integer)).map fun node =>
        ((ParentIndex.ofTree root).ancestors node).map Node.kind) =
          some [.binary, .returnStatement, .block, .functionDecl, .sourceFile] := by decide +kernel
  cases h : parse "<?php function f() \x7b return 1 + 2; \x7d" 256 with
  | error e => simp [h, Except.toOption] at hparses
  | ok root =>
      simp only [h, Except.toOption, Option.any_some, decide_eq_true_eq] at hparses
      exact ⟨root, rfl, hparses.1, parse_indexed h hparses.1, hparses.2⟩

end Census
