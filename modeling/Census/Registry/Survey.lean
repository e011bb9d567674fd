import Census.Registry.DocComment
import Census.Registry.Basic
import Census.Tree.Views

namespace Census

-- Whether annotations count as mentions of exceptions. Thrown objects always count.
inductive AnnotationMode where
  | heeded | ignored
deriving DecidableEq, Repr

-- The namespace of declarations that name none.
def defaultNamespace : String := "+global"

namespace Survey

def bare (name : String) : String := DocComment.bare name.toList

-- The classes that statements below a node throw.
def thrownBelow (node : Node) : List String :=
  (node.descendants.filterMap Node.thrownClass?).map bare

-- The exceptions of a function or a method: those of its annotations, then those of its body.
def exceptionsOf (mode : AnnotationMode) (routine : Node) : List String :=
  (match mode with
    | .heeded => (routine.doc.map DocComment.throws).getD []
    | .ignored => []) ++
  ((routine.firstChild? .block).map thrownBelow).getD []

-- The namespace of a declaration: the one around it, else its package, else the default.
def scopeOf (around : Option String) (node : Node) : String :=
  (around.or (node.doc.bind DocComment.package?)).getD defaultNamespace

def methodsOf (node : Node) : List Node :=
  node.children.filter fun child : Node => child.kind = .method

-- Each exception counts once, where it is first seen.
def declaration (around : Option String) (kind : DeclarationKind) (node : Node)
    (exceptions : List String) : Declaration where
  name := bare node.image
  kind := kind
  scope := scopeOf around node
  exceptions := exceptions.eraseDups
  span := node.span

def classExceptions (mode : AnnotationMode) (node : Node) : List String :=
  (methodsOf node).flatMap (exceptionsOf mode)

mutual

-- The declarations at or below a node. What stands inside of a declaration, a closure or a
-- trait is not reached from outside.
def declarations (mode : AnnotationMode) (around : Option String) : Node → List Declaration
  | ⟨label, children⟩ =>
      let node : Node := ⟨label, children⟩
      match label.content.kind with
      | .classDecl => [declaration around .classType node (classExceptions mode node)]
      | .interfaceDecl => [declaration around .interfaceType node (classExceptions mode node)]
      | .functionDecl => [declaration around .function node (exceptionsOf mode node)]
      | .closure | .traitDecl => []
      | _ => declarationsAll mode around children

def declarationsAll (mode : AnnotationMode) (around : Option String) :
    List Node → List Declaration
  | [] => []
  | node :: rest => declarations mode around node ++ declarationsAll mode around rest

end

-- The name of a namespace, unless it is the unnamed one.
def namespaceName? (node : Node) : Option String :=
  if node.image.isEmpty then none else some node.image

-- The declarations at or below a child of a file's root.
def topDeclarations (mode : AnnotationMode) (node : Node) : List Declaration :=
  if node.kind = .namespaceDecl then
    declarationsAll mode (namespaceName? node) node.children
  else declarations mode none node

end Survey

-- All that a file declares, in the order of the source.
def surveyed (mode : AnnotationMode) (root : Node) : List Declaration :=
  root.children.flatMap (Survey.topDeclarations mode)

-- The registry of a single file.
def survey (mode : AnnotationMode) (root : Node) : Registry :=
  Registry.ofDeclarations (surveyed mode root)

end Census
