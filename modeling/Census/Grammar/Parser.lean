import Census.Grammar.Draft

namespace Census.Grammar

-- The terminals that are left. `index` is the number of the first of them.
structure Input where
  index : Nat
  rest : List Terminal
deriving DecidableEq, Repr

def Parser (α : Type) : Type := Input → Except Failure (α × Input)

namespace Parser

variable {α β : Type}

instance : Monad Parser where
  pure a := fun s => .ok (a, s)
  bind p f := fun s =>
    match p s with
    | .ok (a, s) => f a s
    | .error e => .error e

def fail (e : Failure) : Parser α := fun _ => .error e

-- The number of the next terminal. There has to be one.
def here : Parser Nat := fun s =>
  match s.rest with
  | [] => .error .atEnd
  | _ :: _ => .ok (s.index, s)

-- The kind of the terminal `n` places ahead.
def ahead (n : Nat) : Parser (Option TokenKind) := fun s =>
  .ok ((s.rest[n]?).map (·.kind), s)

-- Whether the terminal `n` places ahead names a type to which a value can be cast.
def castAhead (n : Nat) : Parser Bool := fun s => .ok ((s.rest[n]?).any (·.namesCast), s)

-- Takes the next terminal and returns its number.
def next : Parser Nat := fun s =>
  match s.rest with
  | [] => .error .atEnd
  | _ :: rest => .ok (s.index, ⟨s.index + 1, rest⟩)

-- Refuses the next terminal.
def unexpected (expected : Expected) : Parser α := fun s =>
  match s.rest with
  | [] => .error .atEnd
  | _ :: _ => .error (.unexpected s.index expected)

-- Refuses to go deeper at this place.
def tooDeep : Parser α := fun s => .error (.tooDeep s.index)

-- Takes the next terminal if it has the given kind.
def accept (kind : TokenKind) : Parser (Option Nat) := do
  if (← ahead 0) = some kind then return some (← next) else return none

def expect (kind : TokenKind) (expected : Expected) : Parser Nat := do
  if (← ahead 0) = some kind then next else unexpected expected

def acceptSymbol (s : Symbol) : Parser (Option Nat) := accept (.symbol s)

def expectSymbol (s : Symbol) : Parser Nat := expect (.symbol s) (.symbol s)

def acceptKeyword (k : Keyword) : Parser (Option Nat) := accept (.keyword k)

def expectKeyword (k : Keyword) : Parser Nat := expect (.keyword k) (.keyword k)

def expectVariable : Parser Nat := expect .variableName .variableName

-- The end of a statement: a semicolon, or the tag that closes the code.
def terminator : Parser Nat := do
  match ← ahead 0 with
  | some (.symbol .semicolon) | some .closeTag => next
  | _ => unexpected (.symbol .semicolon)

-- The outcome of one round of a loop.
inductive Round (α β : Type) where
  | again (a : α)
  | done (b : β)

-- At most one round for every terminal of `fuel`, and one more.
def rounds (step : α → Parser (Round α β)) : List Terminal → α → Parser β
  | [], a => do
      match ← step a with
      | .again _ => fail .atEnd
      | .done b => return b
  | _ :: fuel, a => do
      match ← step a with
      | .again a => rounds step fuel a
      | .done b => return b

-- Repeats `step` until it is done. A step that asks for another round takes a terminal, so
-- the terminals that are left bound the number of rounds.
def iterate (step : α → Parser (Round α β)) (a : α) : Parser β := fun s =>
  rounds step s.rest a s

-- Items up to a closing symbol, and the number of that symbol.
def through (close : Symbol) (item : Parser (List α)) : Parser (List α × Nat) :=
  iterate (fun items => do
    match ← acceptSymbol close with
    | some last => return .done (items, last)
    | none =>
        let _ ← here
        return .again (items ++ (← item))) []

-- One or more items with commas between them.
def commaList (item : Parser α) : Parser (List α) :=
  iterate (fun items => do
    let items := items ++ [← item]
    match ← acceptSymbol .comma with
    | some _ => return .again items
    | none => return .done items) []

-- Items with commas between them up to a closing symbol, and the number of that symbol. A
-- comma may stand behind the last item.
def closedList (close : Symbol) (item : Parser α) : Parser (List α × Nat) := do
  let items ← iterate (fun items => do
    if (← ahead 0) = some (.symbol close) then return .done items
    else
      let items := items ++ [← item]
      match ← acceptSymbol .comma with
      | some _ => return .again items
      | none => return .done items) []
  return (items, ← expectSymbol close)

end Parser

end Census.Grammar
