import Census.Grammar.Expression

namespace Census.Grammar.Parser

variable (deeper : Deeper)

-- What kind of names is imported, if that is said.
def importKind : Parser (Option Nat) := do
  match ← ahead 0 with
  | some (.keyword .kwFunction) | some (.keyword .kwConst) => return some (← next)
  | _ => return none

-- An imported name, with its alias if it has one.
def importClause : Parser Draft := do
  let target ← qualifiedName
  match ← acceptKeyword .kwAs with
  | some _ =>
      let short ← identifier
      return ⟨{ kind := .useDecl, first := target.first, last := short
                image := target.bareImage }, [Draft.leaf .identifier short]⟩
  | none =>
      return ⟨{ kind := .useDecl, first := target.first, last := target.last
                image := target.bareImage }, []⟩

def useDeclarations : Parser (List Draft) := do
  let _ ← expectKeyword .kwUse
  let _ ← importKind
  let clauses ← commaList importClause
  let _ ← terminator
  return clauses

-- One declared name with its parts. `lead` is the token at which a declaration of several
-- names begins; only the first name reaches back to it and owns its documentation.
def named (kind : NodeKind) (modifiers : Modifiers) (lead : Option Nat) (name last : Nat)
    (children : List Draft) : Draft :=
  ⟨{ kind, first := lead.getD name, last, image := .tokens name name, modifiers
     doc := lead }, children⟩

-- Names behind the common beginning of their declaration, with commas between them.
def namedItems (first : Nat) (item : Option Nat → Parser Draft) : Parser (List Draft) :=
  iterate (fun items => do
    let items := items ++ [← item (if items.isEmpty then some first else none)]
    match ← acceptSymbol .comma with
    | some _ => return .again items
    | none => return .done items) []

def namedList (first : Nat) (item : Option Nat → Parser Draft) : Parser (List Draft) := do
  let items ← namedItems first item
  let _ ← terminator
  return items

def constant (lead : Option Nat) : Parser Draft := do
  let name ← anyName
  let _ ← expectSymbol .assign
  let value ← deeper .expression
  return named .constant .empty lead name value.last [value]

-- The constants of a declaration that begins at token `first`.
def constants (first : Nat) : Parser (List Draft) := namedList first (constant deeper)

def property (modifiers : Modifiers) (hint : Option Draft) (lead : Option Nat) :
    Parser Draft := do
  let name ← expectVariable
  let value ← initial deeper
  return named .property modifiers lead name ((value.map Draft.last).getD name)
    (hint.toList ++ value.toList)

-- The properties of a declaration that begins at token `first`. Each of them carries the type.
def properties (first : Nat) (modifiers : Modifiers) (hint : Option Draft) :
    Parser (List Draft) :=
  namedList first (property deeper modifiers hint)

-- One member of a class, an interface or a trait. Only modifiers make a variable or a type the
-- beginning of a property.
def member : Parser (List Draft) := do
  let first ← here
  if (← ahead 0) = some (.keyword .kwUse) then useDeclarations
  else
    let modifiers ← modifiers
    match ← ahead 0 with
    | some (.keyword .kwConst) =>
        let _ ← next
        constants deeper first
    | some (.keyword .kwFunction) => return [← method deeper first modifiers]
    | some .variableName =>
        if modifiers.isEmpty then unexpected .classMember
        else properties deeper first modifiers none
    | some .identifier | some (.symbol .backslash) | some (.symbol .question)
    | some (.keyword .kwArray) =>
        if modifiers.isEmpty then unexpected .classMember
        else
          let hint ← typeHint
          properties deeper first modifiers (some hint)
    | _ => unexpected .classMember

-- Members in braces, and the number of the closing brace.
def members : Parser (List Draft × Nat) := do
  let _ ← expectSymbol .leftBrace
  through .rightBrace (deeper .member)

-- Names of other types, behind a keyword that announces them.
def typeReferences (announced : Keyword) (kind : NodeKind) : Parser (List Draft) := do
  match ← acceptKeyword announced with
  | some _ => commaList (Name.node kind <$> qualifiedName)
  | none => return []

def classModifiers : Parser Modifiers :=
  iterate (fun found => do
    match ← ahead 0 with
    | some (.keyword .kwAbstract) =>
        let _ ← next
        return .again (found.insert .isAbstract)
    | some (.keyword .kwFinal) =>
        let _ ← next
        return .again (found.insert .isFinal)
    | _ => return .done found) Modifiers.empty

-- The class that another one extends.
def parentClass : Parser (Option Draft) := do
  match ← acceptKeyword .kwExtends with
  | some _ => return some ((← qualifiedName).node .parentClass)
  | none => return none

def classDeclaration : Parser Draft := do
  let first ← here
  let modifiers ← classModifiers
  let _ ← expectKeyword .kwClass
  let name ← identifier
  let parent ← parentClass
  let interfaces ← typeReferences .kwImplements .implementedInterface
  let (members, last) ← members deeper
  return ⟨{ kind := .classDecl, first, last, image := .tokens name name, modifiers
            doc := some first }, parent.toList ++ interfaces ++ members⟩

def interfaceDeclaration : Parser Draft := do
  let first ← expectKeyword .kwInterface
  let name ← identifier
  let parents ← typeReferences .kwExtends .parentClass
  let (members, last) ← members deeper
  return ⟨{ kind := .interfaceDecl, first, last, image := .tokens name name
            doc := some first }, parents ++ members⟩

def traitDeclaration : Parser Draft := do
  let first ← expectKeyword .kwTrait
  let name ← identifier
  let (members, last) ← members deeper
  return ⟨{ kind := .traitDecl, first, last, image := .tokens name name
            doc := some first }, members⟩

end Census.Grammar.Parser
