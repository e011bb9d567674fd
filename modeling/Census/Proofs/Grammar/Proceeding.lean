import Census.Proofs.Grammar.Taking

namespace Census.Grammar

-- Every goal that is parsed takes a terminal.
def Deeper.Taking (d : Deeper) : Prop := ∀ goal, Parser.Takes (fun _ => 1) (d goal)

namespace Parser

variable {α β : Type}

-- No loop of `p` goes on forever, and `p` takes as many terminals as `n` says.
structure Proceeds (d : Deeper) (n : α → Nat) (p : Parser α) : Prop where
  ends : Terminating d p
  takes : Takes n p

-- What takes a terminal, and what may take none.
abbrev Moves (d : Deeper) (p : Parser α) : Prop := Proceeds d (fun _ => 1) p

abbrev Keeps (d : Deeper) (p : Parser α) : Prop := Proceeds d (fun _ => 0) p

namespace Proceeds

variable {d : Deeper} {m n : α → Nat} {p q : Parser α}

theorem weak (h : Proceeds d n p) : Keeps d p := ⟨h.ends, h.takes.mono fun _ => Nat.zero_le _⟩

theorem pure {a : α} (h : n a = 0) : Proceeds d n (Pure.pure a) := ⟨.pure a, .pure h⟩

theorem bind {f : α → Parser β} {n : β → Nat} (hp : Proceeds d m p)
    (hf : ∀ a, Proceeds d (fun b => n b - m a) (f a)) : Proceeds d n (p >>= f) :=
  ⟨hp.ends.bind fun a => (hf a).ends, hp.takes.bind fun a => (hf a).takes⟩

theorem map {f : α → β} (hp : Moves d p) : Moves d (f <$> p) := hp.bind fun _ => .pure rfl

theorem ite {c : Prop} [Decidable c] (hp : Proceeds d n p) (hq : Proceeds d n q) :
    Proceeds d n (if c then p else q) := by
  split
  · exact hp
  · exact hq

theorem deeper (hd : d.Taking) (goal : Goal) : Moves d (d goal) := ⟨.deeper goal, hd goal⟩

theorem next : Moves d next := ⟨.next, .next⟩

theorem here : Keeps d here := by
  refine ⟨.here, .of_stay ?_⟩
  rintro ⟨index, rest⟩ a t h
  cases rest with
  | nil => cases h
  | cons _ _ =>
      cases h
      rfl

theorem ahead (k : Nat) : Keeps d (ahead k) := by
  refine ⟨.ahead k, .of_stay fun s a t h => ?_⟩
  cases h
  rfl

theorem castAhead (k : Nat) : Keeps d (castAhead k) := by
  refine ⟨.castAhead k, .of_stay fun s a t h => ?_⟩
  cases h
  rfl

theorem unexpected (expected : Expected) : Proceeds d n (unexpected expected) := by
  refine ⟨.unexpected expected, .of_error ?_⟩
  rintro ⟨index, rest⟩
  cases rest with
  | nil => exact ⟨_, rfl⟩
  | cons _ _ => exact ⟨_, rfl⟩

theorem atEnd : Proceeds d n (fail .atEnd) := ⟨.atEnd, .of_error fun _ => ⟨_, rfl⟩⟩

-- A loop ends if every round that is followed by another one takes a terminal.
theorem iterate {step : α → Parser (Round α β)} {n : β → Nat}
    (h : ∀ a, Proceeds d (Round.cost n) (step a)) (a : α) : Proceeds d n (iterate step a) :=
  ⟨.iterate (halts_iterate fun a => (h a).takes) (fun a => (h a).ends) a,
    .iterate (fun a => (h a).takes) a⟩

-- One terminal, if it was there.
theorem accept (kind : TokenKind) : Proceeds d (fun o => o.elim 0 fun _ => 1) (accept kind) :=
  (ahead 0).bind fun _ => .ite (next.bind fun _ => .pure rfl) (.pure rfl)

-- Where it makes no difference whether it was there.
theorem skip (kind : TokenKind) : Keeps d (Parser.accept kind) := (accept kind).weak

theorem expect (kind : TokenKind) (expected : Expected) : Moves d (expect kind expected) :=
  (ahead 0).bind fun _ => .ite next (unexpected _)

theorem terminator : Moves d terminator := by
  refine (ahead 0).bind fun kind => ?_
  split
  · exact next
  · exact next
  · exact unexpected _

theorem through {item : Parser (List α)} (close : Symbol) (h : Moves d item) :
    Moves d (through close item) := by
  refine iterate (fun items => (accept _).bind fun last => ?_) _
  cases last with
  | some _ => exact .pure rfl
  | none => exact here.bind fun _ => h.bind fun _ => .pure rfl

theorem commaList {item : Parser α} (h : Moves d item) : Moves d (commaList item) := by
  refine iterate (fun items => h.bind fun _ => (accept _).bind fun comma => ?_) _
  cases comma with
  | some _ => exact .pure rfl
  | none => exact .pure rfl

theorem closedList {item : Parser α} (close : Symbol) (h : Moves d item) :
    Moves d (closedList close item) := by
  refine bind (m := fun _ => 0) (iterate (fun items => (ahead 0).bind fun _ => .ite (.pure rfl) ?_) _)
    fun _ => (expect _ _).bind fun _ => .pure rfl
  refine h.bind fun _ => (accept _).bind fun comma => ?_
  cases comma with
  | some _ => exact .pure rfl
  | none => exact .pure rfl

-- Names and types.

theorem anyName : Moves d anyName := by
  refine (ahead 0).bind fun kind => ?_
  cases kind with
  | some kind => exact .ite next (unexpected _)
  | none => exact unexpected _

theorem qualifiedName : Moves d qualifiedName := by
  refine here.bind fun _ => (skip _).bind fun _ => anyName.bind fun _ => iterate (fun r => ?_) _
  exact (ahead 0).bind fun _ => (ahead 1).bind fun _ =>
    .ite (next.bind fun _ => next.bind fun _ => .pure rfl) (.pure rfl)

theorem variable_ : Moves d variable_ := (expect _ _).bind fun _ => .pure rfl

theorem classReference : Moves d classReference := by
  refine (ahead 0).bind fun kind => ?_
  split
  · exact next.bind fun _ => .pure rfl
  · exact next.bind fun _ => .pure rfl
  · exact qualifiedName.bind fun _ => .pure rfl

theorem modifiers : Keeps d modifiers := by
  refine iterate (fun found => (ahead 0).bind fun kind => ?_) _
  split
  · exact .pure rfl
  · exact (ahead 1).bind fun _ => .ite (.pure rfl) (next.bind fun _ => .pure rfl)

theorem typeName : Moves d typeName := by
  refine (ahead 0).bind fun kind => ?_
  split
  iterate 4 exact next.bind fun _ => .pure rfl
  exact qualifiedName

theorem typeNames (text : List Nat) : Moves d (typeNames text) := by
  refine iterate (fun _ => typeName.bind fun name => (accept _).bind fun bar => ?_) _
  cases bar with
  | some _ => exact .pure rfl
  | none => exact .pure rfl

theorem typeHint : Moves d typeHint :=
  here.bind fun _ => (skip _).bind fun _ => (typeNames _).bind fun _ => .pure rfl

-- Functions and their parts.

theorem block (hd : d.Taking) : Moves d (block d) :=
  (expect _ _).bind fun _ => (through _ (deeper hd .statement).map).bind fun _ => .pure rfl

theorem initial (hd : d.Taking) : Keeps d (initial d) := by
  refine (skip _).bind fun sign => ?_
  cases sign with
  | some _ => exact (deeper hd .expression).bind fun _ => .pure rfl
  | none => exact .pure rfl

theorem parameterHint : Keeps d parameterHint := by
  refine (ahead 0).bind fun kind => ?_
  split
  iterate 3 exact .pure rfl
  exact typeHint.bind fun _ => .pure rfl

theorem parameter (hd : d.Taking) : Moves d (parameter d) :=
  here.bind fun _ => modifiers.bind fun _ => parameterHint.bind fun _ => (skip _).bind fun _ =>
    (skip _).bind fun _ => (expect _ _).bind fun _ => (initial hd).bind fun _ => .pure rfl

theorem parameters (hd : d.Taking) : Moves d (parameters d) :=
  (expect _ _).bind fun _ => (closedList _ (parameter hd)).bind fun _ => .pure rfl

theorem returnType : Keeps d returnType := by
  refine (skip _).bind fun colon => ?_
  cases colon with
  | some _ => exact typeHint.bind fun _ => .pure rfl
  | none => exact .pure rfl

theorem captures : Keeps d captures := by
  have capture : Moves d capture := (skip _).bind fun _ => variable_
  refine (skip _).bind fun word => ?_
  cases word with
  | some _ => exact (expect _ _).bind fun _ => (closedList _ capture).bind fun _ => .pure rfl
  | none => exact .pure rfl

theorem closure (hd : d.Taking) : Moves d (closure d) :=
  here.bind fun _ => (skip _).bind fun _ => (expect _ _).bind fun _ => (skip _).bind fun _ =>
    (parameters hd).bind fun _ => captures.bind fun _ => returnType.bind fun _ =>
      (block hd).bind fun _ => .pure rfl

theorem function (hd : d.Taking) : Moves d (function d) :=
  (expect _ _).bind fun _ => (skip _).bind fun _ => (expect _ _).bind fun _ =>
    (parameters hd).bind fun _ => returnType.bind fun _ => (block hd).bind fun _ => .pure rfl

theorem method (hd : d.Taking) (first : Nat) (found : Modifiers) :
    Moves d (method d first found) :=
  (expect _ _).bind fun _ => (skip _).bind fun _ => anyName.bind fun _ =>
    (parameters hd).bind fun _ => returnType.bind fun _ => (ahead 0).bind fun _ =>
      .ite ((block hd).bind fun _ => .pure rfl) (terminator.bind fun _ => .pure rfl)

-- Expressions, from their smallest parts on.

theorem parenthesized (hd : d.Taking) : Moves d (parenthesized d) :=
  (expect _ _).bind fun _ => (deeper hd .expression).bind fun _ => (expect _ _).bind fun _ =>
    .pure rfl

theorem argument (hd : d.Taking) : Moves d (argument d) :=
  (skip _).bind fun _ => deeper hd .expression

theorem arguments (hd : d.Taking) : Moves d (arguments d) :=
  (expect _ _).bind fun _ => (closedList _ (argument hd)).bind fun _ => .pure rfl

theorem arrayElement (hd : d.Taking) : Moves d (arrayElement d) := by
  refine here.bind fun _ => (skip _).bind fun _ => (skip _).bind fun _ =>
    (deeper hd .expression).bind fun _ => (skip _).bind fun arrow => ?_
  cases arrow with
  | some _ => exact (skip _).bind fun _ => (deeper hd .expression).bind fun _ => .pure rfl
  | none => exact .pure rfl

theorem arrayRest (hd : d.Taking) (first : Nat) (close : Symbol) :
    Moves d (arrayRest d first close) :=
  (closedList _ (arrayElement hd)).bind fun _ => .pure rfl

theorem allocation (hd : d.Taking) : Moves d (allocation d) :=
  (expect _ _).bind fun _ => classReference.bind fun _ => (ahead 0).bind fun _ =>
    .ite ((arguments hd).bind fun _ => .pure rfl) (.pure rfl)

theorem primary (hd : d.Taking) : Moves d (primary d) := by
  refine (ahead 0).bind fun kind => ?_
  cases kind with
  | none => exact atEnd
  | some kind =>
      dsimp only
      split
      · exact next.bind fun _ => .pure rfl
      split
      · exact next.bind fun _ => .pure rfl
      · exact parenthesized hd
      · exact next.bind fun _ => (arrayRest hd _ _).weak
      · refine (ahead 1).bind fun _ => .ite (next.bind fun _ => next.bind fun _ => ?_) (unexpected _)
        exact (arrayRest hd _ _).weak
      · exact allocation hd
      · exact closure hd
      · exact (ahead 1).bind fun _ => .ite (closure hd) (next.bind fun _ => .pure rfl)
      · exact qualifiedName.bind fun _ => .pure rfl
      · exact qualifiedName.bind fun _ => .pure rfl
      · exact qualifiedName.bind fun _ => .pure rfl
      · exact unexpected _

theorem memberName (hd : d.Taking) : Moves d (memberName d) := by
  refine (ahead 0).bind fun kind => ?_
  split
  · exact next.bind fun _ => .pure rfl
  · exact next.bind fun _ => (deeper hd .expression).bind fun _ => (expect _ _).bind fun _ =>
      .pure rfl
  · exact anyName.bind fun _ => .pure rfl

theorem access (hd : d.Taking) (kind : NodeKind) (base : Draft) : Moves d (access d kind base) :=
  next.bind fun _ => (memberName hd).bind fun _ => .pure rfl

theorem indexed (hd : d.Taking) (base : Draft) : Moves d (indexed d base) := by
  refine next.bind fun _ => (skip _).bind fun last => ?_
  cases last with
  | some _ => exact .pure rfl
  | none => exact (deeper hd .expression).bind fun _ => (expect _ _).bind fun _ => .pure rfl

theorem call (hd : d.Taking) (base : Draft) : Moves d (call d base) :=
  (arguments hd).bind fun _ => .pure rfl

theorem postfixed (hd : d.Taking) : Moves d (postfixed d) := by
  refine (primary hd).bind fun _ => iterate (fun base => (ahead 0).bind fun kind => ?_) _
  split
  · exact (call hd base).bind fun _ => .pure rfl
  · exact (access hd _ base).bind fun _ => .pure rfl
  · exact (access hd _ base).bind fun _ => .pure rfl
  · exact (indexed hd base).bind fun _ => .pure rfl
  · exact next.bind fun _ => .pure rfl
  · exact next.bind fun _ => .pure rfl
  · exact .pure rfl

theorem power (hd : d.Taking) : Moves d (power d) := by
  refine (postfixed hd).bind fun _ => (skip _).bind fun operator => ?_
  cases operator with
  | some _ => exact (deeper hd .unary).bind fun _ => .pure rfl
  | none => exact .pure rfl

theorem prefixed {operand : Parser Draft} (kind : NodeKind) (image : Nat → Image)
    (h : Moves d operand) : Moves d (prefixed kind image operand) :=
  next.bind fun _ => h.bind fun _ => .pure rfl

theorem cast (hd : d.Taking) : Moves d (cast d) :=
  next.bind fun _ => next.bind fun _ => next.bind fun _ => (deeper hd .unary).bind fun _ => .pure rfl

theorem unary (hd : d.Taking) : Moves d (unary d) := by
  have atCast : Keeps d atCast := (castAhead 1).bind fun _ => (ahead 2).bind fun _ => .pure rfl
  refine (ahead 0).bind fun kind => ?_
  split
  iterate 13 exact prefixed _ _ (deeper hd _)
  · exact atCast.bind fun _ => .ite (cast hd) (power hd)
  · exact power hd

theorem operands (hd : d.Taking) (minimum : Nat) : Moves d (operands d minimum) := by
  refine (unary hd).bind fun _ => iterate (fun left => (ahead 0).bind fun kind => ?_) _
  split
  · exact .pure rfl
  · exact .ite (.pure rfl) (next.bind fun _ => .ite (classReference.bind fun _ => .pure rfl)
      ((deeper hd (.operands _)).bind fun _ => .pure rfl))

theorem conditional (hd : d.Taking) : Moves d (conditional d) := by
  refine (operands hd 0).bind fun condition => (skip _).bind fun question => ?_
  cases question with
  | some question => exact (deeper hd (.branches _ _)).weak
  | none => exact .pure rfl

theorem assignment (hd : d.Taking) : Moves d (assignment d) := by
  have mark (kind : TokenKind) : Keeps d (referenceMark kind) := .ite (skip _) (.pure rfl)
  refine (conditional hd).bind fun left => (ahead 0).bind fun kind => ?_
  cases kind with
  | some kind => exact .ite (next.bind fun _ => (mark kind).bind fun _ =>
      (deeper hd .assigned).bind fun _ => .pure rfl) (.pure rfl)
  | none => exact .pure rfl

theorem branches (hd : d.Taking) (question : Nat) (condition : Draft) :
    Moves d (branches d question condition) := by
  refine (skip _).bind fun colon => ?_
  cases colon with
  | some _ => exact (assignment hd).bind fun _ => .pure rfl
  | none => exact (assignment hd).bind fun _ => (expect _ _).bind fun _ =>
      (assignment hd).bind fun _ => .pure rfl

theorem joined {operand : Parser Draft} (operator : Keyword) (h : Moves d operand) :
    Moves d (joined operator operand) := by
  refine h.bind fun _ => iterate (fun left => (accept _).bind fun operator => ?_) _
  cases operator with
  | some _ => exact h.bind fun _ => .pure rfl
  | none => exact .pure rfl

theorem expression (hd : d.Taking) : Moves d (expression d) := joined _ (joined _ (assignment hd))

-- Members and the declarations around them.

theorem importClause : Moves d importClause := by
  refine qualifiedName.bind fun _ => (skip _).bind fun word => ?_
  cases word with
  | some _ => exact (expect _ _).bind fun _ => .pure rfl
  | none => exact .pure rfl

theorem useDeclarations : Moves d useDeclarations := by
  have importKind : Keeps d importKind := by
    refine (ahead 0).bind fun kind => ?_
    split
    · exact next.bind fun _ => .pure rfl
    · exact next.bind fun _ => .pure rfl
    · exact .pure rfl
  exact (expect _ _).bind fun _ => importKind.bind fun _ => (commaList importClause).bind fun _ =>
    terminator.bind fun _ => .pure rfl

theorem namedList {item : Option Nat → Parser Draft} (first : Nat) (h : ∀ lead, Moves d (item lead)) :
    Moves d (namedList first item) := by
  have items : Moves d (namedItems first item) := by
    refine iterate (fun items => (h _).bind fun _ => (accept _).bind fun comma => ?_) _
    cases comma with
    | some _ => exact .pure rfl
    | none => exact .pure rfl
  exact items.bind fun _ => terminator.bind fun _ => .pure rfl

theorem constants (hd : d.Taking) (first : Nat) : Moves d (constants d first) :=
  namedList first fun _ => anyName.bind fun _ => (expect _ _).bind fun _ =>
    (deeper hd .expression).bind fun _ => .pure rfl

theorem properties (hd : d.Taking) (first : Nat) (found : Modifiers) (hint : Option Draft) :
    Moves d (properties d first found hint) :=
  namedList first fun _ => (expect _ _).bind fun _ => (initial hd).bind fun _ => .pure rfl

-- Whatever modifiers there are, something stands behind them.
theorem member (hd : d.Taking) : Moves d (member d) := by
  refine here.bind fun first => (ahead 0).bind fun _ => .ite useDeclarations ?_
  refine modifiers.bind fun found => (ahead 0).bind fun kind => ?_
  split
  · exact next.bind fun _ => (constants hd _).weak
  · exact (method hd _ _).bind fun _ => .pure rfl
  · exact .ite (unexpected _) (properties hd _ _ _)
  iterate 4
    exact .ite (unexpected _)
      (typeHint.bind fun _ => (properties hd _ _ _).weak)
  · exact unexpected _

theorem members (hd : d.Taking) : Moves d (members d) :=
  (expect _ _).bind fun _ => (through _ (deeper hd .member)).weak

theorem typeReferences (announced : Keyword) (kind : NodeKind) :
    Keeps d (typeReferences announced kind) := by
  refine (skip _).bind fun word => ?_
  cases word with
  | some _ => exact (commaList qualifiedName.map).weak
  | none => exact .pure rfl

theorem classModifiers : Keeps d classModifiers := by
  refine iterate (fun found => (ahead 0).bind fun kind => ?_) _
  split
  · exact next.bind fun _ => .pure rfl
  · exact next.bind fun _ => .pure rfl
  · exact .pure rfl

theorem parentClass : Keeps d parentClass := by
  refine (skip _).bind fun word => ?_
  cases word with
  | some _ => exact qualifiedName.bind fun _ => .pure rfl
  | none => exact .pure rfl

theorem classDeclaration (hd : d.Taking) : Moves d (classDeclaration d) :=
  here.bind fun _ => classModifiers.bind fun _ => (expect _ _).bind fun _ => (expect _ _).bind fun _ =>
    parentClass.bind fun _ => (typeReferences _ _).bind fun _ => (members hd).bind fun _ => .pure rfl

theorem interfaceDeclaration (hd : d.Taking) : Moves d (interfaceDeclaration d) :=
  (expect _ _).bind fun _ => (expect _ _).bind fun _ => (typeReferences _ _).bind fun _ =>
    (members hd).bind fun _ => .pure rfl

theorem traitDeclaration (hd : d.Taking) : Moves d (traitDeclaration d) :=
  (expect _ _).bind fun _ => (expect _ _).bind fun _ => (members hd).bind fun _ => .pure rfl

-- Statements.

theorem body (hd : d.Taking) : Moves d (body d) := by
  refine here.bind fun _ => (deeper hd .statement).bind fun statement => ?_
  cases statement with
  | some _ => exact .pure rfl
  | none => exact .pure rfl

theorem clauses {clause : Nat → Parser Draft} (keyword : Keyword) (h : ∀ first, Moves d (clause first)) :
    Keeps d (clauses keyword clause) := by
  refine iterate (fun found => (accept _).bind fun word => ?_) _
  cases word with
  | some first => exact (h first).bind fun _ => .pure rfl
  | none => exact .pure rfl

theorem clause? {clause : Nat → Parser Draft} (keyword : Keyword) (h : ∀ first, Moves d (clause first)) :
    Keeps d (clause? keyword clause) := by
  refine (skip _).bind fun word => ?_
  cases word with
  | some first => exact (h first).bind fun _ => .pure rfl
  | none => exact .pure rfl

theorem ifStatement (hd : d.Taking) : Moves d (ifStatement d) := by
  refine (expect _ _).bind fun _ => (parenthesized hd).bind fun _ => (body hd).bind fun _ => ?_
  refine (clauses _ fun first => ?_).bind fun _ => (clause? _ fun first => ?_).bind fun _ => .pure rfl
  · exact (parenthesized hd).bind fun _ => (body hd).bind fun _ => .pure rfl
  · exact (body hd).bind fun _ => .pure rfl

theorem whileLoop (hd : d.Taking) : Moves d (whileLoop d) :=
  (expect _ _).bind fun _ => (parenthesized hd).bind fun _ => (body hd).bind fun _ => .pure rfl

theorem doWhileLoop (hd : d.Taking) : Moves d (doWhileLoop d) :=
  (expect _ _).bind fun _ => (body hd).bind fun _ => (expect _ _).bind fun _ =>
    (parenthesized hd).bind fun _ => terminator.bind fun _ => .pure rfl

theorem forLoop (hd : d.Taking) : Moves d (forLoop d) :=
  (expect _ _).bind fun _ => (expect _ _).bind fun _ =>
    (closedList _ (deeper hd .expression)).bind fun _ =>
      (closedList _ (deeper hd .expression)).bind fun _ =>
        (closedList _ (deeper hd .expression)).bind fun _ => (body hd).bind fun _ => .pure rfl

theorem foreachValue (hd : d.Taking) : Keeps d (foreachValue d) := by
  refine (skip _).bind fun arrow => ?_
  cases arrow with
  | some _ => exact (skip _).bind fun _ => (deeper hd .expression).bind fun _ => .pure rfl
  | none => exact .pure rfl

theorem foreachLoop (hd : d.Taking) : Moves d (foreachLoop d) :=
  (expect _ _).bind fun _ => (expect _ _).bind fun _ => (deeper hd .expression).bind fun _ =>
    (expect _ _).bind fun _ => (skip _).bind fun _ => (deeper hd .expression).bind fun _ =>
      (foreachValue hd).bind fun _ => (expect _ _).bind fun _ => (body hd).bind fun _ => .pure rfl

theorem switchCases (hd : d.Taking) : Moves d (switchCases d) := by
  refine iterate (fun cases => (accept _).bind fun last => ?_) _
  cases last with
  | some _ => exact .pure rfl
  | none => exact (deeper hd .switchCase).bind fun _ => .pure rfl

theorem switchStatement (hd : d.Taking) : Moves d (switchStatement d) :=
  (expect _ _).bind fun _ => (parenthesized hd).bind fun _ => (expect _ _).bind fun _ =>
    (switchCases hd).bind fun _ => .pure rfl

theorem caseStatements (hd : d.Taking) : Keeps d (caseStatements d) := by
  refine iterate (fun found => (ahead 0).bind fun kind => ?_) _
  split
  · exact atEnd
  iterate 3 exact .pure rfl
  · exact (deeper hd .statement).bind fun _ => .pure rfl

theorem caseRest (hd : d.Taking) (kind : NodeKind) (first : Nat) (value : List Draft) :
    Moves d (caseRest d kind first value) := by
  have caseMark : Moves d caseMark := by
    refine (ahead 0).bind fun kind => ?_
    split
    · exact next
    · exact next
    · exact unexpected _
  exact caseMark.bind fun _ => (caseStatements hd).bind fun _ => .pure rfl

theorem switchCase (hd : d.Taking) : Moves d (switchCase d) := by
  refine (ahead 0).bind fun kind => ?_
  split
  · exact next.bind fun _ => (deeper hd .expression).bind fun _ =>
      (caseRest hd _ _ _).weak
  · exact next.bind fun _ => (caseRest hd _ _ _).weak
  · exact unexpected _

theorem caughtTypes : Moves d caughtTypes := by
  refine iterate (fun types => qualifiedName.bind fun _ => (accept _).bind fun bar => ?_) _
  cases bar with
  | some _ => exact .pure rfl
  | none => exact .pure rfl

theorem catchClause (hd : d.Taking) (first : Nat) : Moves d (catchClause d first) :=
  (expect _ _).bind fun _ => caughtTypes.bind fun _ => (skip _).bind fun _ => (expect _ _).bind fun _ =>
    (block hd).bind fun _ => .pure rfl

theorem tryStatement (hd : d.Taking) : Moves d (tryStatement d) := by
  refine (expect _ _).bind fun _ => (block hd).bind fun _ => (clauses _ (catchClause hd)).bind fun _ => ?_
  refine (clause? _ fun first => ?_).bind fun _ => .ite (unexpected _) (.pure rfl)
  exact (block hd).bind fun _ => .pure rfl

theorem returnStatement (hd : d.Taking) : Moves d (returnStatement d) := by
  have value : Keeps d (returnValue d) := by
    refine (ahead 0).bind fun kind => ?_
    split
    · exact .pure rfl
    · exact .pure rfl
    · exact (deeper hd .expression).bind fun _ => .pure rfl
  exact (expect _ _).bind fun _ => value.bind fun _ => terminator.bind fun _ => .pure rfl

theorem throwStatement (hd : d.Taking) : Moves d (throwStatement d) :=
  (expect _ _).bind fun _ => (deeper hd .expression).bind fun _ => terminator.bind fun _ => .pure rfl

theorem echoStatement (hd : d.Taking) : Moves d (echoStatement d) :=
  (expect _ _).bind fun _ => (commaList (deeper hd .expression)).bind fun _ =>
    terminator.bind fun _ => .pure rfl

theorem jump (kind : NodeKind) : Moves d (jump kind) :=
  next.bind fun _ => (skip _).bind fun _ => terminator.bind fun _ => .pure rfl

theorem globalStatement : Moves d globalStatement :=
  (expect _ _).bind fun _ => (commaList variable_).bind fun _ => terminator.bind fun _ => .pure rfl

theorem staticVariable (hd : d.Taking) : Moves d (staticVariable d) := by
  refine variable_.bind fun _ => (skip _).bind fun operator => ?_
  cases operator with
  | some _ => exact (deeper hd .expression).bind fun _ => .pure rfl
  | none => exact .pure rfl

theorem staticVariables (hd : d.Taking) : Moves d (staticVariables d) :=
  (expect _ _).bind fun _ => (commaList (staticVariable hd)).bind fun _ =>
    terminator.bind fun _ => .pure rfl

theorem expressionStatement (hd : d.Taking) : Moves d (expressionStatement d) :=
  (deeper hd .expression).bind fun _ => terminator.bind fun _ => .pure rfl

theorem fullStatement (hd : d.Taking) (kind : TokenKind) : Moves d (fullStatement d kind) := by
  have atFunction : Keeps d atFunction :=
    (ahead 1).bind fun _ => .ite (.pure rfl) ((ahead 1).bind fun _ => (ahead 2).bind fun _ => .pure rfl)
  unfold Parser.fullStatement
  split
  · exact block hd
  · exact ifStatement hd
  · exact whileLoop hd
  · exact doWhileLoop hd
  · exact switchStatement hd
  · exact forLoop hd
  · exact foreachLoop hd
  · exact tryStatement hd
  · exact returnStatement hd
  · exact throwStatement hd
  · exact echoStatement hd
  · exact jump _
  · exact jump _
  · exact globalStatement
  · exact (ahead 1).bind fun _ => .ite (staticVariables hd) (expressionStatement hd)
  iterate 3 exact classDeclaration hd
  · exact interfaceDeclaration hd
  · exact traitDeclaration hd
  · exact atFunction.bind fun _ => .ite (function hd) (expressionStatement hd)
  · exact expressionStatement hd

-- An empty statement takes its own terminal.
theorem statement (hd : d.Taking) : Moves d (statement d) := by
  refine (ahead 0).bind fun kind => ?_
  split
  · exact atEnd
  · exact next.bind fun _ => .pure rfl
  · exact next.bind fun _ => .pure rfl
  · exact (fullStatement hd _).bind fun _ => .pure rfl

-- Files.

theorem topStatement (hd : d.Taking) : Moves d (topStatement d) := by
  refine (ahead 0).bind fun kind => ?_
  split
  · exact useDeclarations
  · exact next.bind fun _ => (constants hd _).weak
  · exact (deeper hd .statement).bind fun _ => .pure rfl

theorem openStatements (hd : d.Taking) : Keeps d (openStatements d) := by
  refine iterate (fun found => (ahead 0).bind fun kind => ?_) _
  split
  · exact .pure rfl
  · exact .pure rfl
  · exact (topStatement hd).bind fun _ => .pure rfl

theorem namespaceDeclaration (hd : d.Taking) : Moves d (namespaceDeclaration d) := by
  have image : Keeps d namespaceImage :=
    (ahead 0).bind fun _ => .ite (.pure rfl) (qualifiedName.bind fun _ => .pure rfl)
  refine (expect _ _).bind fun _ => image.bind fun _ => (skip _).bind fun brace => ?_
  cases brace with
  | some _ => exact (through _ (topStatement hd)).bind fun _ => .pure rfl
  | none => exact terminator.bind fun _ => (openStatements hd).bind fun _ => .pure rfl

theorem file (hd : d.Taking) : Keeps d (file d) := by
  refine iterate (fun found => (ahead 0).bind fun kind => ?_) _
  cases kind with
  | none => exact .pure rfl
  | some kind =>
      exact (ahead 1).bind fun _ => .ite ((namespaceDeclaration hd).bind fun _ => .pure rfl)
        ((topStatement hd).bind fun _ => .pure rfl)

theorem production (hd : d.Taking) (goal : Goal) : Moves d (goal.production d) := by
  cases goal with
  | statement => exact statement hd
  | member => exact member hd
  | switchCase => exact switchCase hd
  | expression => exact expression hd
  | assigned => exact assignment hd
  | branches question condition => exact branches hd question condition
  | operands minimum => exact operands hd minimum
  | unary => exact unary hd

end Proceeds

end Parser

-- By induction on the levels: every goal takes a terminal, given that the goals one level deeper do.
theorem parse_taking (levels : Nat) : Deeper.Taking (parse levels) := by
  induction levels with
  | zero => exact fun _ => .of_error fun s => ⟨_, rfl⟩
  | succ levels ih => exact fun goal => (Parser.Proceeds.production ih goal).takes

end Census.Grammar
