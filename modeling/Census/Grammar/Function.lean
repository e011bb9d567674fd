import Census.Grammar.Goal

namespace Census.Grammar.Parser

variable (deeper : Deeper)

-- A statement in braces; empty statements leave nothing.
def block : Parser Draft := do
  let first ← expectSymbol .leftBrace
  let (statements, last) ← through .rightBrace (Option.toList <$> deeper .statement)
  return ⟨{ kind := .block, first, last }, statements⟩

-- The value behind an equals sign, if there is one.
def initial : Parser (Option Draft) := do
  match ← acceptSymbol .assign with
  | some _ => return some (← deeper .expression)
  | none => return none

-- The type in front of a parameter, if there is one.
def parameterHint : Parser (Option Draft) := do
  match ← ahead 0 with
  | some .variableName | some (.symbol .ampersand) | some (.symbol .ellipsis) => return none
  | _ => return some (← typeHint)

def parameter : Parser Draft := do
  let first ← here
  let _ ← modifiers
  let hint ← parameterHint
  let _ ← acceptSymbol .ampersand
  let _ ← acceptSymbol .ellipsis
  let name ← expectVariable
  let default ← initial deeper
  let last := (default.map Draft.last).getD name
  return ⟨{ kind := .parameter, first, last, image := .tokens name name },
    hint.toList ++ default.toList⟩

def parameters : Parser (List Draft) := do
  let _ ← expectSymbol .leftParen
  return (← closedList .rightParen (parameter deeper)).1

def returnType : Parser (Option Draft) := do
  match ← acceptSymbol .colon with
  | some _ => return some (← typeHint)
  | none => return none

def capture : Parser Draft := do
  let _ ← acceptSymbol .ampersand
  variable_

-- The variables that a closure takes from around it.
def captures : Parser (List Draft) := do
  match ← acceptKeyword .kwUse with
  | none => return []
  | some _ =>
      let _ ← expectSymbol .leftParen
      return (← closedList .rightParen capture).1

def closure : Parser Draft := do
  let first ← here
  let _ ← acceptKeyword .kwStatic
  let _ ← expectKeyword .kwFunction
  let _ ← acceptSymbol .ampersand
  let parameters ← parameters deeper
  let captures ← captures
  let result ← returnType
  let body ← block deeper
  return ⟨{ kind := .closure, first, last := body.last },
    parameters ++ captures ++ result.toList ++ [body]⟩

def function : Parser Draft := do
  let first ← expectKeyword .kwFunction
  let _ ← acceptSymbol .ampersand
  let name ← identifier
  let parameters ← parameters deeper
  let result ← returnType
  let body ← block deeper
  return ⟨{ kind := .functionDecl, first, last := body.last, image := .tokens name name
            doc := some first },
    parameters ++ result.toList ++ [body]⟩

-- A method that begins with its modifiers at token `first`. Its body may be missing.
def method (first : Nat) (modifiers : Modifiers) : Parser Draft := do
  let _ ← expectKeyword .kwFunction
  let _ ← acceptSymbol .ampersand
  let name ← anyName
  let parameters ← parameters deeper
  let result ← returnType
  if (← ahead 0) = some (.symbol .leftBrace) then
    let body ← block deeper
    return ⟨{ kind := .method, first, last := body.last, image := .tokens name name, modifiers
              doc := some first },
      parameters ++ result.toList ++ [body]⟩
  else
    let last ← terminator
    return ⟨{ kind := .method, first, last, image := .tokens name name, modifiers
              doc := some first },
      parameters ++ result.toList⟩

end Census.Grammar.Parser
