import Census.Grammar.Statement

namespace Census.Grammar

-- What a goal consists of, given how to parse one level deeper.
def Goal.production (deeper : Deeper) : (goal : Goal) → Parser goal.Result
  | .statement => Parser.statement deeper
  | .member => Parser.member deeper
  | .switchCase => Parser.switchCase deeper
  | .expression => Parser.expression deeper
  | .assigned => Parser.assignment deeper
  | .branches question condition => Parser.branches deeper question condition
  | .operands minimum => Parser.operands deeper minimum
  | .unary => Parser.unary deeper

-- Parses a goal where at most `levels` levels may still be entered. All recursion of the
-- grammar enters a level, so it ends.
def parse : (levels : Nat) → Deeper
  | 0, _ => Parser.tooDeep
  | levels + 1, goal => goal.production (parse levels)

namespace Parser

variable (deeper : Deeper)

-- What may stand outside of functions: imports and constants besides statements.
def topStatement : Parser (List Draft) := do
  match ← ahead 0 with
  | some (.keyword .kwUse) => useDeclarations
  | some (.keyword .kwConst) => constants deeper (← next)
  | _ => return (← deeper .statement).toList

-- The name of a namespace; one in braces may have none.
def namespaceImage : Parser Image := do
  if (← ahead 0) = some (.symbol .leftBrace) then return .none
  else return (← qualifiedName).bareImage

-- All statements up to the next namespace keyword.
def openStatements : Parser (List Draft) :=
  iterate (fun found => do
    match ← ahead 0 with
    | none | some (.keyword .kwNamespace) => return .done found
    | some _ => return .again (found ++ (← topStatement deeper))) []

-- A namespace in braces, or one that owns what follows up to the next keyword of its kind.
def namespaceDeclaration : Parser Draft := do
  let first ← expectKeyword .kwNamespace
  let image ← namespaceImage
  match ← acceptSymbol .leftBrace with
  | some _ =>
      let (statements, last) ← through .rightBrace (topStatement deeper)
      return ⟨{ kind := .namespaceDecl, first, last, image }, statements⟩
  | none =>
      let mark ← terminator
      let statements ← openStatements deeper
      let last := (statements.getLast?.map Draft.last).getD mark
      return ⟨{ kind := .namespaceDecl, first, last, image }, statements⟩

-- A whole file. The namespace keyword in front of a separator begins a name instead.
def file : Parser (List Draft) :=
  iterate (fun found => do
    match ← ahead 0 with
    | none => return .done found
    | some kind =>
        if kind = .keyword .kwNamespace && (← ahead 1) != some (.symbol .backslash) then
          return .again (found ++ [← namespaceDeclaration deeper])
        else return .again (found ++ (← topStatement deeper))) []

end Parser

-- The nodes of a file that nests at most `levels` levels deep.
def parseFile (levels : Nat) (terminals : List Terminal) : Except Failure (List Draft) :=
  match Parser.file (parse levels) ⟨0, terminals⟩ with
  | .ok (drafts, _) => .ok drafts
  | .error failure => .error failure

end Census.Grammar
