import Census.Tree.Node

namespace Census

namespace NodeKind

def isExpression : NodeKind → Bool
  | .assignment | .conditional | .binary | .unary | .postfixOperation | .cast | .instanceOf
  | .allocation | .closure | .clone | .inclusion | .print | .call | .memberAccess | .staticAccess
  | .index | .array | .variableName | .identifier | .literal _ => true
  | _ => false

-- Declarations of types and functions are statements.
def isStatement : NodeKind → Bool
  | .block | .expressionStatement | .returnStatement | .throwStatement | .ifStatement | .whileLoop
  | .forLoop | .foreachLoop | .tryStatement | .echoStatement | .breakStatement
  | .continueStatement | .switchStatement | .doWhileLoop | .globalStatement | .staticVariables
  | .classDecl | .interfaceDecl | .traitDecl | .functionDecl => true
  | _ => false

-- The nodes whose image is a name.
def isNamed : NodeKind → Bool
  | .namespaceDecl | .useDecl | .classDecl | .interfaceDecl | .traitDecl | .functionDecl | .method
  | .constant | .parentClass | .implementedInterface | .identifier => true
  | _ => false

-- The nodes whose image is all of their own text.
def isVerbatim : NodeKind → Bool
  | .variableName | .identifier | .literal _ | .typeHint | .parentClass | .implementedInterface => true
  | _ => false

theorem isVerbatim_of_isDocumented {kind : NodeKind} (h : kind.isDocumented = true) :
    kind.isVerbatim = false := by
  cases kind <;> first | rfl | cases h

-- The declarations of which several may stand in one list.
def isListed : NodeKind → Bool
  | .property | .constant => true
  | _ => false

theorem isDocumented_of_isListed {kind : NodeKind} (h : kind.isListed = true) :
    kind.isDocumented = true := by
  cases kind <;> first | rfl | cases h

-- What may stand outside of functions.
def isItem (kind : NodeKind) : Bool := kind.isStatement || kind = .useDecl || kind = .constant

-- What stands in a file outside of everything else.
def isTop (kind : NodeKind) : Bool := kind = .namespaceDecl || kind.isItem

def isMember : NodeKind → Bool
  | .useDecl | .constant | .method | .property => true
  | _ => false

-- What tells the class of an object.
def isReference : NodeKind → Bool
  | .identifier | .variableName => true
  | _ => false

def isCase : NodeKind → Bool
  | .caseBranch | .defaultBranch => true
  | _ => false

def isStatic : NodeKind → Bool
  | .variableName | .assignment => true
  | _ => false

def only (kind other : NodeKind) : Bool := other = kind

end NodeKind

-- How often children of a kind may stand in a row.
inductive Count where
  | one | optional | many | some

def Count.Allows : Count → Nat → Prop
  | .one, n => n = 1
  | .optional, n => n ≤ 1
  | .many, _ => True
  | .some, n => 0 < n

-- A place for children in a row.
structure Slot where
  count : Count
  takes : NodeKind → Bool

namespace Slot

def one (takes : NodeKind → Bool) : Slot := ⟨.one, takes⟩

def optional (takes : NodeKind → Bool) : Slot := ⟨.optional, takes⟩

def many (takes : NodeKind → Bool) : Slot := ⟨.many, takes⟩

def some (takes : NodeKind → Bool) : Slot := ⟨.some, takes⟩

-- Whether a list of kinds can be cut into one row for each slot.
def Fit : List Slot → List NodeKind → Prop
  | [], kinds => kinds = []
  | slot :: slots, kinds => ∃ front back, kinds = front ++ back ∧ slot.count.Allows front.length ∧
      (∀ kind ∈ front, slot.takes kind = true) ∧ Fit slots back

section Rows

variable {takes : NodeKind → Bool} {slots : List Slot} {front back : List NodeKind}

theorem Fit.row {slot : Slot} (h : slot.count.Allows front.length)
    (all : ∀ kind ∈ front, slot.takes kind = true) (rest : Fit slots back) :
    Fit (slot :: slots) (front ++ back) := ⟨front, back, rfl, h, all, rest⟩

-- A child is of a kind that one of the slots takes.
theorem Fit.taken {kinds : List NodeKind} (h : Fit slots kinds) :
    ∀ kind ∈ kinds, ∃ slot ∈ slots, slot.takes kind = true := by
  induction slots generalizing kinds with
  | nil =>
      rw [show kinds = [] from h]
      nofun
  | cons slot slots ih =>
      obtain ⟨front, back, rfl, -, hall, hrest⟩ := h
      intro kind hkind
      rcases List.mem_append.1 hkind with hfront | hback
      · exact ⟨slot, List.mem_cons_self, hall kind hfront⟩
      · obtain ⟨other, hother, htakes⟩ := ih hrest kind hback
        exact ⟨other, List.mem_cons_of_mem _ hother, htakes⟩

end Rows

end Slot

namespace NodeKind

-- The children of a node by its kind, in their order.
def slots : NodeKind → List Slot
  | .sourceFile => [.many isTop]
  | .namespaceDecl => [.many isItem]
  | .useDecl => [.optional (only .identifier)]
  | .classDecl => [.optional (only .parentClass), .many (only .implementedInterface), .many isMember]
  | .interfaceDecl => [.many (only .parentClass), .many isMember]
  | .traitDecl => [.many isMember]
  | .functionDecl => [.many (only .parameter), .optional (only .typeHint), .one (only .block)]
  | .method => [.many (only .parameter), .optional (only .typeHint), .optional (only .block)]
  | .closure =>
      [.many (only .parameter), .many (only .variableName), .optional (only .typeHint),
        .one (only .block)]
  | .parameter | .property => [.optional (only .typeHint), .optional isExpression]
  | .constant | .throwStatement | .expressionStatement => [.one isExpression]
  | .allocation => [.one isReference, .optional (only .arguments)]
  | .conditional => [.one isExpression, .optional isExpression, .one isExpression]
  | .assignment | .binary | .memberAccess | .staticAccess => [.one isExpression, .one isExpression]
  | .instanceOf => [.one isExpression, .one isReference]
  | .unary | .postfixOperation | .cast | .clone | .inclusion | .print => [.one isExpression]
  | .arguments => [.many isExpression]
  | .call => [.one isExpression, .one (only .arguments)]
  | .index | .arrayElement => [.one isExpression, .optional isExpression]
  | .array => [.many (only .arrayElement)]
  | .parentClass | .implementedInterface | .typeHint | .variableName | .identifier
  | .literal _ => []
  | .block => [.many isStatement]
  | .returnStatement => [.optional isExpression]
  | .ifStatement =>
      [.one isExpression, .one isStatement, .many (only .elseIfBranch), .optional (only .elseBranch)]
  | .elseIfBranch | .whileLoop => [.one isExpression, .one isStatement]
  | .elseBranch => [.one isStatement]
  | .doWhileLoop => [.one isStatement, .one isExpression]
  | .forLoop => [.many isExpression, .one isStatement]
  | .foreachLoop => [.one isExpression, .one isExpression, .optional isExpression, .one isStatement]
  | .switchStatement => [.one isExpression, .many isCase]
  | .caseBranch => [.one isExpression, .many isStatement]
  | .defaultBranch => [.many isStatement]
  | .tryStatement =>
      [.one (only .block), .many (only .catchClause), .optional (only .finallyClause)]
  | .catchClause => [.some (only .typeHint), .optional (only .variableName), .one (only .block)]
  | .finallyClause => [.one (only .block)]
  | .echoStatement => [.some isExpression]
  | .breakStatement | .continueStatement => [.optional (only (.literal .integer))]
  | .globalStatement => [.some (only .variableName)]
  | .staticVariables => [.some isStatic]

-- No place is meant for a whole file, and none but a file's for a namespace.
theorem takes_slots {kind : NodeKind} :
    ∀ slot ∈ kind.slots, slot.takes .sourceFile = false ∧
      (slot.takes .namespaceDecl = true → kind = .sourceFile) := by
  cases kind with
  | literal => exact List.forall_mem_nil _
  | _ => decide

end NodeKind

end Census
