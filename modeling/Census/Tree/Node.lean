import Census.Text.Position
import Census.Tree.Basic

namespace Census

inductive LiteralKind where
  | boolean | integer | float | string | null
deriving DecidableEq, Repr

inductive NodeKind where
  -- declarations
  | sourceFile | namespaceDecl | useDecl | classDecl | interfaceDecl | traitDecl | functionDecl
  | method | property | constant | parameter | parentClass | implementedInterface | typeHint
  -- statements
  | block | expressionStatement | returnStatement | throwStatement | ifStatement | elseIfBranch
  | elseBranch | whileLoop | forLoop | foreachLoop | tryStatement | catchClause | finallyClause
  | echoStatement | breakStatement | continueStatement | switchStatement | caseBranch
  | defaultBranch | doWhileLoop | globalStatement | staticVariables
  -- expressions
  | assignment | conditional | binary | unary | postfixOperation | cast | instanceOf
  | allocation | closure | clone | inclusion | print | arguments | call | memberAccess
  | staticAccess | index | array | arrayElement | variableName | identifier
  | literal (kind : LiteralKind)
deriving DecidableEq, Repr

namespace NodeKind

-- The declarations that carry documentation.
def isDocumented : NodeKind → Bool
  | .classDecl | .interfaceDecl | .traitDecl | .functionDecl | .method | .property
  | .constant => true
  | _ => false

end NodeKind

inductive Modifier where
  | publicAccess | protectedAccess | privateAccess | isStatic | isAbstract | isFinal
deriving DecidableEq, Repr

-- A set of modifiers.
structure Modifiers where
  publicAccess : Bool := false
  protectedAccess : Bool := false
  privateAccess : Bool := false
  isStatic : Bool := false
  isAbstract : Bool := false
  isFinal : Bool := false
deriving DecidableEq, Repr

namespace Modifiers

def empty : Modifiers := {}

def contains (m : Modifiers) : Modifier → Bool
  | .publicAccess => m.publicAccess
  | .protectedAccess => m.protectedAccess
  | .privateAccess => m.privateAccess
  | .isStatic => m.isStatic
  | .isAbstract => m.isAbstract
  | .isFinal => m.isFinal

def insert (m : Modifiers) : Modifier → Modifiers
  | .publicAccess => { m with publicAccess := true }
  | .protectedAccess => { m with protectedAccess := true }
  | .privateAccess => { m with privateAccess := true }
  | .isStatic => { m with isStatic := true }
  | .isAbstract => { m with isAbstract := true }
  | .isFinal => { m with isFinal := true }

def isEmpty (m : Modifiers) : Bool := m = empty

theorem contains_insert (m : Modifiers) (a b : Modifier) :
    (m.insert a).contains b = (a = b || m.contains b) := by
  cases a <;> cases b <;> simp [insert, contains]

end Modifiers

-- What a node says of itself. The image is the text of a name, a literal or an operator, or
-- the name that a declaration introduces; it is empty where there is no such text.
structure Content where
  kind : NodeKind
  span : Span
  image : String
  modifiers : Modifiers
  doc : Option String
deriving DecidableEq, Repr

structure Label where
  id : UInt32
  content : Content
deriving DecidableEq, Repr

-- Nodes of one tree are numbered in preorder, the root with zero.
abbrev Node := Tree Label

namespace Node

def id (node : Node) : Nat := node.label.id.toNat

def kind (node : Node) : NodeKind := node.label.content.kind

def span (node : Node) : Span := node.label.content.span

def image (node : Node) : String := node.label.content.image

def modifiers (node : Node) : Modifiers := node.label.content.modifiers

def doc (node : Node) : Option String := node.label.content.doc

def firstChild? (node : Node) (kind : NodeKind) : Option Node :=
  node.children.find? fun child => child.kind = kind

-- The node and all that lies below it, in preorder.
def descendants (node : Node) : List Node := (Walk.ofTree node).toList

-- The first node of a kind below this one.
def firstDescendant? (node : Node) (kind : NodeKind) : Option Node :=
  node.descendants.tail.find? fun below => below.kind = kind

-- The nodes whose span holds a position.
def covering (node : Node) (p : Position) : List Node :=
  node.descendants.filter fun below => below.span.contains p

end Node

end Census
