import Census.Grammar.Parser

namespace Census.Grammar

-- The parts of the grammar that count as one level of nesting each.
inductive Goal where
  | statement
  | member
  | switchCase
  | expression
  -- the right side of an assignment, or the operand of an inclusion
  | assigned
  -- what follows the question mark of a conditional
  | branches (question : Nat) (condition : Draft)
  -- operands joined by operators of at least this precedence
  | operands (minimum : Nat)
  | unary

namespace Goal

-- An empty statement leaves no node, and one member may declare several names.
@[reducible]
def Result : Goal → Type
  | .statement => Option Draft
  | .member => List Draft
  | _ => Draft

end Goal

-- How to parse what lies one level deeper.
abbrev Deeper := (goal : Goal) → Parser goal.Result

-- A name of several words, put together token by token: perhaps a separator in front, and the words
-- with the separators between them. It reaches from token `first` to token `last`.
structure Name where
  first : Nat
  lead : Option Nat
  words : List Nat
  last : Nat

namespace Name

-- A single word.
def word (token : Nat) : Name := { first := token, lead := none, words := [token], last := token }

def tokens (name : Name) : List Nat := name.lead.toList ++ name.words

def image (name : Name) : Image := .pieces name.tokens

-- The image without the leading separator.
def bareImage (name : Name) : Image := .pieces name.words

def node (kind : NodeKind) (name : Name) : Draft :=
  ⟨{ kind, first := name.first, last := name.last, image := name.image }, []⟩

end Name

namespace Parser

def identifier : Parser Nat := expect .identifier .identifier

-- A name where keywords may serve as names too.
def anyName : Parser Nat := do
  match ← ahead 0 with
  | some kind => if kind.isName then next else unexpected .identifier
  | none => unexpected .identifier

-- Words joined by separators, perhaps behind a leading separator. A separator that no word
-- follows is left.
def qualifiedName : Parser Name := do
  let first ← here
  let lead ← acceptSymbol .backslash
  let word ← anyName
  iterate (fun (words, last) => do
    if (← ahead 0) = some (.symbol .backslash) && (← ahead 1).any TokenKind.isName then
      let separator ← next
      let word ← next
      return .again (words ++ [separator, word], word)
    else return .done { first, lead, words, last }) ([word], word)

def variable_ : Parser Draft := return Draft.leaf .variableName (← expectVariable)

-- The name of a class, or a variable that holds it.
def classReference : Parser Draft := do
  match ← ahead 0 with
  | some .variableName => return Draft.leaf .variableName (← next)
  | some (.keyword .kwStatic) => return Draft.leaf .identifier (← next)
  | _ => return (← qualifiedName).node .identifier

-- The modifiers in front of a member or a parameter. The word for static access is none.
def modifiers : Parser Modifiers :=
  iterate (fun found => do
    match (← ahead 0).bind modifier? with
    | none => return .done found
    | some m =>
        if m = .isStatic && (← ahead 1) = some (.symbol .doubleColon) then return .done found
        else
          let _ ← next
          return .again (found.insert m)) Modifiers.empty
where
  modifier? : TokenKind → Option Modifier
    | .keyword .kwPublic | .keyword .kwVar => some .publicAccess
    | .keyword .kwProtected => some .protectedAccess
    | .keyword .kwPrivate => some .privateAccess
    | .keyword .kwStatic => some .isStatic
    | .keyword .kwAbstract => some .isAbstract
    | .keyword .kwFinal => some .isFinal
    | _ => none

-- One alternative of a type.
def typeName : Parser Name := do
  match ← ahead 0 with
  | some (.keyword .kwArray) | some (.keyword .kwStatic) | some (.keyword .kwNull)
  | some (.keyword .kwFalse) => return .word (← next)
  | _ => qualifiedName

-- Alternatives joined by bars, behind the tokens `text`: all these tokens, and the last of them.
def typeNames (text : List Nat) : Parser (List Nat × Nat) :=
  iterate (fun text => do
    let name ← typeName
    let text := text ++ name.tokens
    match ← acceptSymbol .pipe with
    | some bar => return .again (text ++ [bar])
    | none => return .done (text, name.last)) text

-- A whole type. A question mark may stand in front of it.
def typeHint : Parser Draft := do
  let first ← here
  let question ← acceptSymbol .question
  let (text, last) ← typeNames question.toList
  return ⟨{ kind := .typeHint, first, last, image := .pieces text }, []⟩

end Parser

end Census.Grammar
