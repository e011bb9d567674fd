import Census.Tree.Node

namespace Census

-- The nodes of one tree and the numbers of their parents, each in the slot of the node's number.
structure ParentIndex where
  nodes : Array Node
  parents : Array (Option Nat)

namespace ParentIndex

def empty : ParentIndex := ⟨#[], #[]⟩

-- Fills up with a value unless there are that many entries.
def resized {α : Type} (entries : Array α) (size : Nat) (a : α) : Array α :=
  entries ++ Array.replicate (size - entries.size) a

-- Both tables grow as far as the slot of the node.
def enter (index : ParentIndex) (parent : Option Nat) (node : Node) : ParentIndex where
  nodes := (resized index.nodes (node.id + 1) node).setIfInBounds node.id node
  parents := (resized index.parents (node.id + 1) none).setIfInBounds node.id parent

mutual

def visit (index : ParentIndex) (parent : Option Nat) : Node → ParentIndex
  | ⟨a, ts⟩ => visitAll (index.enter parent ⟨a, ts⟩) (some (Node.id ⟨a, ts⟩)) ts

def visitAll (index : ParentIndex) (parent : Option Nat) : List Node → ParentIndex
  | [] => index
  | t :: ts => visitAll (visit index parent t) parent ts

end

def ofTree (root : Node) : ParentIndex := empty.visit none root

def size (index : ParentIndex) : Nat := index.nodes.size

def node? (index : ParentIndex) (id : Nat) : Option Node := index.nodes[id]?

def parentId? (index : ParentIndex) (id : Nat) : Option Nat := (index.parents[id]?).join

def parent? (index : ParentIndex) (node : Node) : Option Node :=
  (index.parentId? node.id).bind index.node?

-- The chain of parents from the nearest up to the root. Parents have smaller numbers than
-- their children, so the number of the node bounds the length of the chain.
def ancestorsWithin (index : ParentIndex) : Nat → Node → List Node
  | 0, _ => []
  | n + 1, node =>
      match index.parent? node with
      | none => []
      | some parent => parent :: index.ancestorsWithin n parent

def ancestors (index : ParentIndex) (node : Node) : List Node :=
  index.ancestorsWithin node.id node

end ParentIndex

end Census
