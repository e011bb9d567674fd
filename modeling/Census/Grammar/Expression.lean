import Census.Grammar.Function

namespace Census.Grammar

-- How tightly a binary operator holds its operands; higher is tighter. A rightward operator
-- leaves operators of its own precedence to its right operand.
structure Binding where
  precedence : Nat
  rightward : Bool := false
deriving DecidableEq, Repr

namespace Binding

-- The lowest precedence that a right operand may have without parentheses.
def rightMinimum (b : Binding) : Nat := if b.rightward then b.precedence else b.precedence + 1

def instanceOf : Binding := { precedence := 12 }

def ofSymbol? : Symbol → Option Binding
  | .coalesce => some { precedence := 1, rightward := true }
  | .orElse => some { precedence := 2 }
  | .andAlso => some { precedence := 3 }
  | .pipe => some { precedence := 4 }
  | .caret => some { precedence := 5 }
  | .ampersand => some { precedence := 6 }
  | .equal | .notEqual | .identical | .notIdentical | .spaceship => some { precedence := 7 }
  | .less | .lessEqual | .greater | .greaterEqual => some { precedence := 8 }
  | .shiftLeft | .shiftRight => some { precedence := 9 }
  | .plus | .minus | .dot => some { precedence := 10 }
  | .star | .slash | .percent => some { precedence := 11 }
  | _ => none

def ofKind? : TokenKind → Option Binding
  | .symbol s => ofSymbol? s
  | .keyword .kwInstanceof => some instanceOf
  | _ => none

end Binding

namespace Parser

variable (deeper : Deeper)

def parenthesized : Parser Draft := do
  let _ ← expectSymbol .leftParen
  let inner ← deeper .expression
  let _ ← expectSymbol .rightParen
  return inner

def argument : Parser Draft := do
  let _ ← acceptSymbol .ellipsis
  deeper .expression

def arguments : Parser Draft := do
  let first ← expectSymbol .leftParen
  let (children, last) ← closedList .rightParen (argument deeper)
  return ⟨{ kind := .arguments, first, last }, children⟩

def literalKind? : TokenKind → Option LiteralKind
  | .integer => some .integer
  | .float => some .float
  | .string => some .string
  | .keyword .kwTrue | .keyword .kwFalse => some .boolean
  | .keyword .kwNull => some .null
  | _ => none

-- A value, with its key in front of an arrow if it has one.
def arrayElement : Parser Draft := do
  let first ← here
  let _ ← acceptSymbol .ellipsis
  let _ ← acceptSymbol .ampersand
  let head ← deeper .expression
  match ← acceptSymbol .fatArrow with
  | some _ =>
      let _ ← acceptSymbol .ampersand
      let value ← deeper .expression
      return ⟨{ kind := .arrayElement, first, last := value.last }, [head, value]⟩
  | none => return ⟨{ kind := .arrayElement, first, last := head.last }, [head]⟩

-- The rest of an array that begins at token `first`, behind its opening bracket.
def arrayRest (first : Nat) (close : Symbol) : Parser Draft := do
  let (elements, last) ← closedList close (arrayElement deeper)
  return ⟨{ kind := .array, first, last }, elements⟩

def allocation : Parser Draft := do
  let first ← expectKeyword .kwNew
  let type ← classReference
  if (← ahead 0) = some (.symbol .leftParen) then
    let arguments ← arguments deeper
    return ⟨{ kind := .allocation, first, last := arguments.last }, [type, arguments]⟩
  else return ⟨{ kind := .allocation, first, last := type.last }, [type]⟩

def primary : Parser Draft := do
  match ← ahead 0 with
  | none => fail .atEnd
  | some kind =>
      match literalKind? kind with
      | some literal => return Draft.leaf (.literal literal) (← next)
      | none =>
          match kind with
          | .variableName => return Draft.leaf .variableName (← next)
          | .symbol .leftParen => parenthesized deeper
          | .symbol .leftBracket => arrayRest deeper (← next) .rightBracket
          | .keyword .kwArray =>
              if (← ahead 1) = some (.symbol .leftParen) then
                let first ← next
                let _ ← next
                arrayRest deeper first .rightParen
              else unexpected .expression
          | .keyword .kwNew => allocation deeper
          | .keyword .kwFunction => closure deeper
          | .keyword .kwStatic =>
              if (← ahead 1) = some (.keyword .kwFunction) then closure deeper
              else return Draft.leaf .identifier (← next)
          | .identifier | .symbol .backslash | .keyword .kwNamespace =>
              return (← qualifiedName).node .identifier
          | _ => unexpected .expression

-- What names a member behind an arrow or a double colon.
def memberName : Parser Draft := do
  match ← ahead 0 with
  | some .variableName => return Draft.leaf .variableName (← next)
  | some (.symbol .leftBrace) =>
      let _ ← next
      let inner ← deeper .expression
      let _ ← expectSymbol .rightBrace
      return inner
  | _ => return Draft.leaf .identifier (← anyName)

-- What names a member, behind the arrow or the double colon that comes next.
def access (kind : NodeKind) (base : Draft) : Parser Draft := do
  let _ ← next
  let member ← memberName deeper
  return ⟨{ kind, first := base.first, last := member.last }, [base, member]⟩

-- A key in brackets, which may be left out.
def indexed (base : Draft) : Parser Draft := do
  let _ ← next
  match ← acceptSymbol .rightBracket with
  | some last => return ⟨{ kind := .index, first := base.first, last }, [base]⟩
  | none =>
      let key ← deeper .expression
      let last ← expectSymbol .rightBracket
      return ⟨{ kind := .index, first := base.first, last }, [base, key]⟩

def call (base : Draft) : Parser Draft := do
  let arguments ← arguments deeper
  return ⟨{ kind := .call, first := base.first, last := arguments.last }, [base, arguments]⟩

def postfixRound (base : Draft) : Parser (Round Draft Draft) := do
  match ← ahead 0 with
  | some (.symbol .leftParen) => return .again (← call deeper base)
  | some (.symbol .arrow) => return .again (← access deeper .memberAccess base)
  | some (.symbol .doubleColon) => return .again (← access deeper .staticAccess base)
  | some (.symbol .leftBracket) => return .again (← indexed deeper base)
  | some (.symbol .increment) | some (.symbol .decrement) =>
      let operator ← next
      return .again ⟨{ kind := .postfixOperation, first := base.first, last := operator
                       image := .tokens operator operator }, [base]⟩
  | _ => return .done base

-- Calls, accesses and steps behind a primary expression, from left to right.
def postfixed : Parser Draft := do
  let first ← primary deeper
  iterate (postfixRound deeper) first

def power : Parser Draft := do
  let base ← postfixed deeper
  match ← acceptSymbol .power with
  | some operator => return Draft.joining .binary operator base (← deeper .unary)
  | none => return base

-- A single operator in front of its operand.
def prefixed (kind : NodeKind) (image : Nat → Image) (operand : Parser Draft) :
    Parser Draft := do
  let operator ← next
  let inner ← operand
  return ⟨{ kind, first := operator, last := inner.last, image := image operator }, [inner]⟩

-- Whether a type name in parentheses comes next.
def atCast : Parser Bool := do
  return (← castAhead 1) && (← ahead 2) = some (.symbol .rightParen)

def cast : Parser Draft := do
  let first ← next
  let target ← next
  let _ ← next
  let inner ← deeper .unary
  return ⟨{ kind := .cast, first, last := inner.last, image := .lowered target }, [inner]⟩

def unary : Parser Draft := do
  let image (operator : Nat) : Image := .tokens operator operator
  match ← ahead 0 with
  | some (.symbol .bang) =>
      -- negation reaches over a class test to its right
      prefixed .unary image (deeper (.operands Binding.instanceOf.precedence))
  | some (.symbol .minus) | some (.symbol .plus) | some (.symbol .tilde)
  | some (.symbol .atSign) | some (.symbol .increment) | some (.symbol .decrement) =>
      prefixed .unary image (deeper .unary)
  | some (.keyword .kwInclude) | some (.keyword .kwIncludeOnce) | some (.keyword .kwRequire)
  | some (.keyword .kwRequireOnce) => prefixed .inclusion .lowered (deeper .assigned)
  | some (.keyword .kwPrint) => prefixed .print (fun _ => .none) (deeper .assigned)
  | some (.keyword .kwClone) => prefixed .clone (fun _ => .none) (deeper .unary)
  | some (.symbol .leftParen) => if ← atCast then cast deeper else power deeper
  | _ => power deeper

-- One operator behind the operands so far, with what follows it.
def operandRound (minimum : Nat) (left : Draft) : Parser (Round Draft Draft) := do
  let kind ← ahead 0
  match kind.bind Binding.ofKind? with
  | none => return .done left
  | some binding =>
      if binding.precedence < minimum then return .done left
      else
        let operator ← next
        if kind = some (.keyword .kwInstanceof) then
          return .again (Draft.joining .instanceOf operator left (← classReference))
        else
          let right ← deeper (.operands binding.rightMinimum)
          return .again (Draft.joining .binary operator left right)

-- Operands joined by operators of at least the given precedence.
def operands (minimum : Nat) : Parser Draft := do
  let first ← unary deeper
  iterate (operandRound deeper minimum) first

def conditional : Parser Draft := do
  let condition ← operands deeper 0
  match ← acceptSymbol .question with
  | some question => deeper (.branches question condition)
  | none => return condition

-- The mark of a reference, which only plain assignment allows.
def referenceMark (kind : TokenKind) : Parser (Option Nat) :=
  if kind = .symbol .assign then acceptSymbol .ampersand else return none

def assignment : Parser Draft := do
  let left ← conditional deeper
  match ← ahead 0 with
  | some kind =>
      if kind.isAssignment then
        let operator ← next
        let _ ← referenceMark kind
        return Draft.joining .assignment operator left (← deeper .assigned)
      else return left
  | none => return left

-- The branches behind the question mark of a conditional. The short form has no first branch.
def branches (question : Nat) (condition : Draft) : Parser Draft := do
  match ← acceptSymbol .colon with
  | some colon =>
      let otherwise ← assignment deeper
      return ⟨{ kind := .conditional, first := condition.first, last := otherwise.last
                image := .tokens question colon }, [condition, otherwise]⟩
  | none =>
      let chosen ← assignment deeper
      let _ ← expectSymbol .colon
      let otherwise ← assignment deeper
      return ⟨{ kind := .conditional, first := condition.first, last := otherwise.last
                image := .tokens question question }, [condition, chosen, otherwise]⟩

def joinedRound (operator : Keyword) (operand : Parser Draft) (left : Draft) :
    Parser (Round Draft Draft) := do
  match ← acceptKeyword operator with
  | some operator => return .again (Draft.joining .binary operator left (← operand))
  | none => return .done left

-- Operands joined by one and the same keyword, from left to right.
def joined (operator : Keyword) (operand : Parser Draft) : Parser Draft := do
  let first ← operand
  iterate (joinedRound operator operand) first

def expression : Parser Draft := joined .kwOr (joined .kwAnd (assignment deeper))

end Parser

end Census.Grammar
