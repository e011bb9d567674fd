namespace Census

-- Ordered trees with a label at every node.
structure Tree (α : Type) where
  label : α
  children : List (Tree α) := []

namespace Tree

variable {α β : Type}

mutual

def decEq [DecidableEq α] : (s t : Tree α) → Decidable (s = t)
  | ⟨a, ss⟩, ⟨b, ts⟩ =>
      if h : a = b then
        match decEqAll ss ts with
        | isTrue hs => isTrue (by rw [h, hs])
        | isFalse hs => isFalse (by intro e; cases e; exact hs rfl)
      else isFalse (by intro e; cases e; exact h rfl)

def decEqAll [DecidableEq α] : (ss ts : List (Tree α)) → Decidable (ss = ts)
  | [], [] => isTrue rfl
  | [], _ :: _ => isFalse nofun
  | _ :: _, [] => isFalse nofun
  | s :: ss, t :: ts =>
      match decEq s t, decEqAll ss ts with
      | isTrue h, isTrue hs => isTrue (by rw [h, hs])
      | isFalse h, _ => isFalse (by intro e; cases e; exact h rfl)
      | _, isFalse hs => isFalse (by intro e; cases e; exact hs rfl)

end

instance [DecidableEq α] : DecidableEq (Tree α) := decEq

mutual

def map (f : α → β) : Tree α → Tree β
  | ⟨a, ts⟩ => ⟨f a, mapAll f ts⟩

def mapAll (f : α → β) : List (Tree α) → List (Tree β)
  | [] => []
  | t :: ts => t.map f :: mapAll f ts

end

mutual

-- The number of nodes.
def size : Tree α → Nat
  | ⟨_, ts⟩ => sizeAll ts + 1

def sizeAll : List (Tree α) → Nat
  | [] => 0
  | t :: ts => t.size + sizeAll ts

end

mutual

-- The number of nodes on a longest path from the root.
def height : Tree α → Nat
  | ⟨_, ts⟩ => heightAll ts + 1

def heightAll : List (Tree α) → Nat
  | [] => 0
  | t :: ts => max t.height (heightAll ts)

end

mutual

-- All subtrees in preorder: a tree comes before what lies below it.
def subtrees : Tree α → List (Tree α)
  | ⟨a, ts⟩ => ⟨a, ts⟩ :: subtreesAll ts

def subtreesAll : List (Tree α) → List (Tree α)
  | [] => []
  | t :: ts => t.subtrees ++ subtreesAll ts

end

mutual

-- Numbers the nodes in preorder by a counter of 32 bits that is handed from node to node, and
-- returns the counter behind the last of them.
def number (f : UInt32 → α → β) (next : UInt32) : Tree α → Tree β × UInt32
  | ⟨a, ts⟩ =>
      let (numbered, behind) := numberAll f (next + 1) ts
      (⟨f next a, numbered⟩, behind)

def numberAll (f : UInt32 → α → β) (next : UInt32) : List (Tree α) → List (Tree β) × UInt32
  | [] => ([], next)
  | t :: ts =>
      let (first, behind) := t.number f next
      let (numbered, behind) := numberAll f behind ts
      (first :: numbered, behind)

end

end Tree

-- A traversal under way: the trees that are still to be visited, the next one on top of the stack.
structure Walk (α : Type) where
  stack : Array (Tree α)

namespace Walk

variable {α : Type}

def ofTree (t : Tree α) : Walk α := ⟨#[t]⟩

-- The children are pushed from the last to the first, which is visited next.
def next? (w : Walk α) : Option (Tree α × Walk α) :=
  w.stack.back?.map fun t => (t, ⟨w.stack.pop ++ t.children.reverse⟩)

theorem next?_eq_some {w v : Walk α} {t : Tree α} (h : w.next? = some (t, v)) :
    ∃ rest : Array (Tree α), w.stack = rest.push t ∧ v.stack = rest ++ t.children.reverse := by
  obtain ⟨top, htop, heq⟩ := Option.map_eq_some_iff.1 h
  obtain ⟨rest, hrest⟩ := Array.back?_eq_some_iff.1 htop
  have hpop : w.stack.pop = rest := by rw [hrest, Array.pop_push]
  cases heq
  exact ⟨rest, hrest, by simp only [hpop]⟩

theorem sizeAll_append (ss ts : List (Tree α)) :
    Tree.sizeAll (ss ++ ts) = Tree.sizeAll ss + Tree.sizeAll ts := by
  induction ss with
  | nil => simp [Tree.sizeAll]
  | cons s ss ih => simp [Tree.sizeAll, ih, Nat.add_assoc]

theorem sizeAll_reverse (ts : List (Tree α)) : Tree.sizeAll ts.reverse = Tree.sizeAll ts := by
  induction ts with
  | nil => rfl
  | cons t ts ih => rw [List.reverse_cons, sizeAll_append, ih, Tree.sizeAll, Tree.sizeAll,
      Tree.sizeAll, Nat.add_zero, Nat.add_comm]

theorem next?_smaller {w v : Walk α} {t : Tree α} (h : w.next? = some (t, v)) :
    Tree.sizeAll v.stack.toList < Tree.sizeAll w.stack.toList := by
  obtain ⟨rest, hw, hv⟩ := next?_eq_some h
  cases t
  simp only [hw, hv, Array.toList_appendList, Array.toList_push, sizeAll_append, sizeAll_reverse,
    Tree.sizeAll, Tree.size]
  omega

-- The trees in the order of their visits.
def toList (w : Walk α) : List (Tree α) :=
  match h : w.next? with
  | none => []
  | some (t, rest) =>
      have := next?_smaller h
      t :: rest.toList
termination_by Tree.sizeAll w.stack.toList

end Walk

end Census
