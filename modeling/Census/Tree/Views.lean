import Census.Tree.Node

namespace Census

-- What the nodes of a tree say, by the kind of construct. Each view is read off the node and
-- its children, and exists only for nodes of its kind.

namespace Node

def childrenOf (node : Node) (view : Node → Option α) : List α := node.children.filterMap view

def imagesOf (node : Node) (kind : NodeKind) : List String :=
  (node.children.filter fun child : Node => child.kind = kind).map image

def imageOf? (node : Node) (kind : NodeKind) : Option String :=
  (node.firstChild? kind).map image

end Node

-- A formal parameter; its name includes the dollar sign.
structure Parameter where
  name : String
  hint : Option String
deriving DecidableEq, Repr

namespace Parameter

def ofNode? (node : Node) : Option Parameter :=
  if node.kind = .parameter then some ⟨node.image, node.imageOf? .typeHint⟩ else none

end Parameter

-- A function or a method. A method may lack its body.
structure Routine where
  name : String
  modifiers : Modifiers
  parameters : List Parameter
  body : Option Node
  doc : Option String

namespace Routine

def ofNode (node : Node) : Routine where
  name := node.image
  modifiers := node.modifiers
  parameters := node.childrenOf Parameter.ofNode?
  body := node.firstChild? .block
  doc := node.doc

def function? (node : Node) : Option Routine :=
  if node.kind = .functionDecl then some (ofNode node) else none

def method? (node : Node) : Option Routine :=
  if node.kind = .method then some (ofNode node) else none

end Routine

structure ClassView where
  name : String
  modifiers : Modifiers
  parent : Option String
  interfaces : List String
  methods : List Routine
  properties : List String
  constants : List String
  doc : Option String
  span : Span

namespace ClassView

def ofNode? (node : Node) : Option ClassView :=
  if node.kind = .classDecl then
    some {
      name := node.image
      modifiers := node.modifiers
      parent := node.imageOf? .parentClass
      interfaces := node.imagesOf .implementedInterface
      methods := node.childrenOf Routine.method?
      properties := node.imagesOf .property
      constants := node.imagesOf .constant
      doc := node.doc
      span := node.span }
  else none

end ClassView

structure InterfaceView where
  name : String
  parents : List String
  methods : List Routine
  constants : List String
  doc : Option String

namespace InterfaceView

def ofNode? (node : Node) : Option InterfaceView :=
  if node.kind = .interfaceDecl then
    some {
      name := node.image
      parents := node.imagesOf .parentClass
      methods := node.childrenOf Routine.method?
      constants := node.imagesOf .constant
      doc := node.doc }
  else none

end InterfaceView

-- An imported name and the name that stands for it, if that was chosen.
structure Import where
  target : String
  localName : Option String
deriving DecidableEq, Repr

namespace Import

def ofNode? (node : Node) : Option Import :=
  if node.kind = .useDecl then some ⟨node.image, node.imageOf? .identifier⟩ else none

end Import

-- What a file or a namespace declares directly.
structure Scope where
  name : String
  imports : List Import
  classes : List String
  interfaces : List String
  functions : List String
deriving DecidableEq, Repr

namespace Scope

def ofNode (node : Node) : Scope where
  name := node.image
  imports := node.childrenOf Import.ofNode?
  classes := node.imagesOf .classDecl
  interfaces := node.imagesOf .interfaceDecl
  functions := node.imagesOf .functionDecl

def namespace? (node : Node) : Option Scope :=
  if node.kind = .namespaceDecl then some (ofNode node) else none

end Scope

-- A conditional expression. The short form has no first branch.
structure Conditional where
  condition : Node
  chosen : Option Node
  otherwise : Node

namespace Conditional

def isShort (c : Conditional) : Bool := c.chosen.isNone

def ofNode? (node : Node) : Option Conditional :=
  if node.kind = .conditional then
    match node.children with
    | [condition, otherwise] => some ⟨condition, none, otherwise⟩
    | [condition, chosen, otherwise] => some ⟨condition, some chosen, otherwise⟩
    | _ => none
  else none

end Conditional

namespace Node

def literalKind? (node : Node) : Option LiteralKind :=
  match node.kind with
  | .literal kind => some kind
  | _ => none

-- The class that an allocation names, unless a variable holds it.
def allocatedClass? (node : Node) : Option String :=
  if node.kind = .allocation then
    (node.children.head?.filter fun type : Node => type.kind = .identifier).map image
  else none

-- The class of an object that a statement allocates in order to throw it.
def thrownClass? (node : Node) : Option String :=
  if node.kind = .throwStatement then node.children.head?.bind allocatedClass? else none

end Node

end Census
