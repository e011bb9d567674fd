import Census.Grammar.Declaration

namespace Census.Grammar.Parser

variable (deeper : Deeper)

-- The body of a control structure. An empty statement counts as an empty block.
def body : Parser Draft := do
  let first ← here
  match ← deeper .statement with
  | some statement => return statement
  | none => return ⟨{ kind := .block, first, last := first }, []⟩

def elseIfBranch (first : Nat) : Parser Draft := do
  let condition ← parenthesized deeper
  let body ← body deeper
  return ⟨{ kind := .elseIfBranch, first, last := body.last }, [condition, body]⟩

-- Any number of clauses behind a keyword, whose number each clause is given.
def clauses (keyword : Keyword) (clause : Nat → Parser Draft) : Parser (List Draft) :=
  iterate (fun found => do
    match ← acceptKeyword keyword with
    | some first => return .again (found ++ [← clause first])
    | none => return .done found) []

def clause? (keyword : Keyword) (clause : Nat → Parser Draft) : Parser (Option Draft) := do
  match ← acceptKeyword keyword with
  | some first => return some (← clause first)
  | none => return none

-- The last token of a structure, whose clauses may be missing.
def lastOf (head : Draft) (clauses : List Draft) : Nat := (clauses.getLastD head).last

def elseBranch (first : Nat) : Parser Draft := do
  let body ← body deeper
  return ⟨{ kind := .elseBranch, first, last := body.last }, [body]⟩

def ifStatement : Parser Draft := do
  let first ← expectKeyword .kwIf
  let condition ← parenthesized deeper
  let chosen ← body deeper
  let elseIfs ← clauses .kwElseif (elseIfBranch deeper)
  let otherwise ← clause? .kwElse (elseBranch deeper)
  let branches := elseIfs ++ otherwise.toList
  return ⟨{ kind := .ifStatement, first, last := lastOf chosen branches },
    condition :: chosen :: branches⟩

def whileLoop : Parser Draft := do
  let first ← expectKeyword .kwWhile
  let condition ← parenthesized deeper
  let body ← body deeper
  return ⟨{ kind := .whileLoop, first, last := body.last }, [condition, body]⟩

def doWhileLoop : Parser Draft := do
  let first ← expectKeyword .kwDo
  let body ← body deeper
  let _ ← expectKeyword .kwWhile
  let condition ← parenthesized deeper
  let last ← terminator
  return ⟨{ kind := .doWhileLoop, first, last }, [body, condition]⟩

def forLoop : Parser Draft := do
  let first ← expectKeyword .kwFor
  let _ ← expectSymbol .leftParen
  let (starts, _) ← closedList .semicolon (deeper .expression)
  let (conditions, _) ← closedList .semicolon (deeper .expression)
  let (steps, _) ← closedList .rightParen (deeper .expression)
  let body ← body deeper
  return ⟨{ kind := .forLoop, first, last := body.last },
    starts ++ conditions ++ steps ++ [body]⟩

-- The value behind the key of a loop over entries, if the loop asks for both.
def foreachValue : Parser (Option Draft) := do
  match ← acceptSymbol .fatArrow with
  | some _ =>
      let _ ← acceptSymbol .ampersand
      return some (← deeper .expression)
  | none => return none

def foreachLoop : Parser Draft := do
  let first ← expectKeyword .kwForeach
  let _ ← expectSymbol .leftParen
  let subject ← deeper .expression
  let _ ← expectKeyword .kwAs
  let _ ← acceptSymbol .ampersand
  let target ← deeper .expression
  let value ← foreachValue deeper
  let _ ← expectSymbol .rightParen
  let body ← body deeper
  return ⟨{ kind := .foreachLoop, first, last := body.last },
    subject :: target :: value.toList ++ [body]⟩

-- Cases up to the closing brace, and the number of that brace.
def switchCases : Parser (List Draft × Nat) :=
  iterate (fun cases => do
    match ← acceptSymbol .rightBrace with
    | some last => return .done (cases, last)
    | none => return .again (cases ++ [← deeper .switchCase])) []

def switchStatement : Parser Draft := do
  let first ← expectKeyword .kwSwitch
  let subject ← parenthesized deeper
  let _ ← expectSymbol .leftBrace
  let (cases, last) ← switchCases deeper
  return ⟨{ kind := .switchStatement, first, last }, subject :: cases⟩

-- The statements of a case, up to the next case or the closing brace.
def caseStatements : Parser (List Draft) :=
  iterate (fun found => do
    match ← ahead 0 with
    | none => fail .atEnd
    | some (.keyword .kwCase) | some (.keyword .kwDefault) | some (.symbol .rightBrace) =>
        return .done found
    | some _ => return .again (found ++ (← deeper .statement).toList)) []

-- The mark behind the value of a case.
def caseMark : Parser Nat := do
  match ← ahead 0 with
  | some (.symbol .colon) | some (.symbol .semicolon) => next
  | _ => unexpected (.symbol .colon)

-- The rest of a case behind its value. It ends with its last statement that leaves a node.
def caseRest (kind : NodeKind) (first : Nat) (value : List Draft) : Parser Draft := do
  let mark ← caseMark
  let statements ← caseStatements deeper
  let last := (statements.getLast?.map Draft.last).getD mark
  return ⟨{ kind, first, last }, value ++ statements⟩

def switchCase : Parser Draft := do
  match ← ahead 0 with
  | some (.keyword .kwCase) =>
      let first ← next
      let value ← deeper .expression
      caseRest deeper .caseBranch first [value]
  | some (.keyword .kwDefault) =>
      let first ← next
      caseRest deeper .defaultBranch first []
  | _ => unexpected .caseOrDefault

-- The types of what is caught, with bars between them.
def caughtTypes : Parser (List Draft) :=
  iterate (fun types => do
    let types := types ++ [Name.node .typeHint (← qualifiedName)]
    match ← acceptSymbol .pipe with
    | some _ => return .again types
    | none => return .done types) []

def catchClause (first : Nat) : Parser Draft := do
  let _ ← expectSymbol .leftParen
  let types ← caughtTypes
  let caught ← accept .variableName
  let _ ← expectSymbol .rightParen
  let block ← block deeper
  return ⟨{ kind := .catchClause, first, last := block.last },
    types ++ (caught.map (Draft.leaf .variableName)).toList ++ [block]⟩

def finallyClause (first : Nat) : Parser Draft := do
  let block ← block deeper
  return ⟨{ kind := .finallyClause, first, last := block.last }, [block]⟩

-- A guarded block needs at least one clause.
def tryStatement : Parser Draft := do
  let first ← expectKeyword .kwTry
  let guarded ← block deeper
  let catches ← clauses .kwCatch (catchClause deeper)
  let final ← clause? .kwFinally (finallyClause deeper)
  let rest := catches ++ final.toList
  if rest.isEmpty then unexpected .catchOrFinally
  else return ⟨{ kind := .tryStatement, first, last := lastOf guarded rest }, guarded :: rest⟩

def returnValue : Parser (Option Draft) := do
  match ← ahead 0 with
  | some (.symbol .semicolon) | some .closeTag => return none
  | _ => return some (← deeper .expression)

def returnStatement : Parser Draft := do
  let first ← expectKeyword .kwReturn
  let value ← returnValue deeper
  let last ← terminator
  return ⟨{ kind := .returnStatement, first, last }, value.toList⟩

def throwStatement : Parser Draft := do
  let first ← expectKeyword .kwThrow
  let value ← deeper .expression
  let last ← terminator
  return ⟨{ kind := .throwStatement, first, last }, [value]⟩

def echoStatement : Parser Draft := do
  let first ← expectKeyword .kwEcho
  let values ← commaList (deeper .expression)
  let last ← terminator
  return ⟨{ kind := .echoStatement, first, last }, values⟩

-- A jump out of loops, with their number if it is given.
def jump (kind : NodeKind) : Parser Draft := do
  let first ← next
  let count ← accept .integer
  let last ← terminator
  return ⟨{ kind, first, last }, (count.map (Draft.leaf (.literal .integer))).toList⟩

def globalStatement : Parser Draft := do
  let first ← expectKeyword .kwGlobal
  let names ← commaList variable_
  let last ← terminator
  return ⟨{ kind := .globalStatement, first, last }, names⟩

-- A static variable; one with an initial value is an assignment.
def staticVariable : Parser Draft := do
  let target ← variable_
  match ← acceptSymbol .assign with
  | some operator => return Draft.joining .assignment operator target (← deeper .expression)
  | none => return target

def staticVariables : Parser Draft := do
  let first ← expectKeyword .kwStatic
  let items ← commaList (staticVariable deeper)
  let last ← terminator
  return ⟨{ kind := .staticVariables, first, last }, items⟩

def expressionStatement : Parser Draft := do
  let value ← deeper .expression
  let last ← terminator
  return ⟨{ kind := .expressionStatement, first := value.first, last }, [value]⟩

-- Whether a function with a name comes next; without a name it is an expression.
def atFunction : Parser Bool := do
  if (← ahead 1) = some .identifier then return true
  else return (← ahead 1) = some (.symbol .ampersand) && (← ahead 2) = some .identifier

-- A statement other than an empty one, by the kind of its first token.
def fullStatement : TokenKind → Parser Draft
  | .symbol .leftBrace => block deeper
  | .keyword .kwIf => ifStatement deeper
  | .keyword .kwWhile => whileLoop deeper
  | .keyword .kwDo => doWhileLoop deeper
  | .keyword .kwSwitch => switchStatement deeper
  | .keyword .kwFor => forLoop deeper
  | .keyword .kwForeach => foreachLoop deeper
  | .keyword .kwTry => tryStatement deeper
  | .keyword .kwReturn => returnStatement deeper
  | .keyword .kwThrow => throwStatement deeper
  | .keyword .kwEcho => echoStatement deeper
  | .keyword .kwBreak => jump .breakStatement
  | .keyword .kwContinue => jump .continueStatement
  | .keyword .kwGlobal => globalStatement
  | .keyword .kwStatic => do
      if (← ahead 1) = some .variableName then staticVariables deeper
      else expressionStatement deeper
  | .keyword .kwAbstract | .keyword .kwFinal | .keyword .kwClass => classDeclaration deeper
  | .keyword .kwInterface => interfaceDeclaration deeper
  | .keyword .kwTrait => traitDeclaration deeper
  | .keyword .kwFunction => do
      if ← atFunction then function deeper else expressionStatement deeper
  | _ => expressionStatement deeper

-- A lone semicolon, or the tag that closes the code, is an empty statement.
def statement : Parser (Option Draft) := do
  match ← ahead 0 with
  | none => fail .atEnd
  | some (.symbol .semicolon) | some .closeTag =>
      let _ ← next
      return none
  | some kind => return some (← fullStatement deeper kind)

end Census.Grammar.Parser
