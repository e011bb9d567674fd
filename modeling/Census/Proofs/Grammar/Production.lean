import Census.Proofs.Grammar.Sighted

namespace Census.Grammar.Parser

namespace Sighted

variable {d d' : Deeper} {s : Option (Option TokenKind)}

theorem anyName : Sighted d d' s anyName anyName := by
  refine look fun kind => ?_
  cases kind with
  | some kind => exact .ite next (unexpected _)
  | none => exact unexpected _

theorem variable_ : Sighted d d' s variable_ variable_ := (expect _ _).bind fun _ => .pure _

theorem classReference : Sighted d d' s classReference classReference := by
  apply look
  intro kind
  split
  · exact next.bind fun _ => .pure _
  · exact next.bind fun _ => .pure _
  · exact .bind qualifiedName fun _ => .pure _

theorem modifiers : Sighted d d' s modifiers modifiers := by
  refine iterate (fun found => look fun kind => ?_) _
  split
  · exact .pure _
  · exact .taken (by simp) (.pure _) fun _ => .pure _

theorem typeName : Sighted d d' s typeName typeName := by
  apply look
  intro kind
  split
  · exact next.bind fun _ => .pure _
  · exact next.bind fun _ => .pure _
  · exact next.bind fun _ => .pure _
  · exact next.bind fun _ => .pure _
  · exact qualifiedName

theorem typeNames (text : List Nat) : Sighted d d' s (typeNames text) (typeNames text) := by
  refine iterate (fun _ => .bind typeName fun name => (accept _).bind fun bar => ?_) _
  cases bar with
  | some _ => exact .pure _
  | none => exact .pure _

theorem typeHint : Sighted d d' s typeHint typeHint :=
  here.bind fun _ => (accept _).bind fun _ => .bind (typeNames _) fun _ => .pure _

-- Functions and their parts.

theorem block : Sighted d d' s (block d) (block d') :=
  (expect _ _).bind fun _ => (through _ ((deeper .statement).map _)).bind fun _ => .pure _

theorem initial : Sighted d d' s (initial d) (initial d') := by
  apply (accept _).bind
  intro sign
  cases sign with
  | some _ => exact (deeper .expression).bind fun _ => .pure _
  | none => exact .pure _

theorem parameterHint : Sighted d d' s parameterHint parameterHint := by
  apply look
  intro kind
  split
  · exact .pure _
  · exact .pure _
  · exact .pure _
  · exact .bind typeHint fun _ => .pure _

theorem parameter : Sighted d d' s (parameter d) (parameter d') :=
  here.bind fun _ => .bind modifiers fun _ => .bind parameterHint fun _ => (accept _).bind fun _ =>
    (accept _).bind fun _ => (expect _ _).bind fun _ => .bind initial fun _ => .pure _

theorem parameters : Sighted d d' s (parameters d) (parameters d') :=
  (expect _ _).bind fun _ => (closedList _ parameter).bind fun _ => .pure _

theorem returnType : Sighted d d' s returnType returnType := by
  apply (accept _).bind
  intro colon
  cases colon with
  | some _ => exact .bind typeHint fun _ => .pure _
  | none => exact .pure _

theorem captures : Sighted d d' s captures captures := by
  apply (accept _).bind
  intro word
  cases word with
  | some _ =>
      have capture : Sighted d d' none capture capture := (accept _).bind fun _ => variable_
      exact (expect _ _).bind fun _ => (closedList _ capture).bind fun _ => .pure _
  | none => exact .pure _

theorem closure : Sighted d d' s (closure d) (closure d') :=
  here.bind fun _ => (accept _).bind fun _ => (expect _ _).bind fun _ => (accept _).bind fun _ =>
    .bind parameters fun _ => .bind captures fun _ => .bind returnType fun _ =>
      .bind block fun _ => .pure _

theorem function : Sighted d d' s (function d) (function d') :=
  (expect _ _).bind fun _ => (accept _).bind fun _ => (expect _ _).bind fun _ =>
    .bind parameters fun _ => .bind returnType fun _ => .bind block fun _ => .pure _

theorem method (first : Nat) (found : Modifiers) :
    Sighted d d' s (method d first found) (method d' first found) :=
  (expect _ _).bind fun _ => (accept _).bind fun _ => .bind anyName fun _ =>
    .bind parameters fun _ => .bind returnType fun _ => look fun _ =>
      .ite (.bind block fun _ => .pure _) (terminator.bind fun _ => .pure _)

-- Expressions, from their smallest parts on.

theorem parenthesized : Sighted d d' s (parenthesized d) (parenthesized d') :=
  (expect _ _).bind fun _ => (deeper .expression).bind fun _ => (expect _ _).bind fun _ => .pure _

theorem arguments : Sighted d d' s (arguments d) (arguments d') := by
  have argument : Sighted d d' none (argument d) (argument d') :=
    (accept _).bind fun _ => deeper .expression
  exact (expect _ _).bind fun _ => (closedList _ argument).bind fun _ => .pure _

theorem arrayElement : Sighted d d' s (arrayElement d) (arrayElement d') := by
  refine here.bind fun first => (accept _).bind fun _ => (accept _).bind fun _ =>
    (deeper .expression).bind fun head => (accept _).bind fun arrow => ?_
  cases arrow with
  | some _ => exact (accept _).bind fun _ => (deeper .expression).bind fun _ => .pure _
  | none => exact .pure _

theorem arrayRest (first : Nat) (close : Symbol) :
    Sighted d d' s (arrayRest d first close) (arrayRest d' first close) :=
  (closedList _ arrayElement).bind fun _ => .pure _

theorem allocation : Sighted d d' s (allocation d) (allocation d') :=
  (expect _ _).bind fun _ => .bind classReference fun _ => look fun _ =>
    .ite (.bind arguments fun _ => .pure _) (.pure _)

theorem primary : Sighted d d' s (primary d) (primary d') := by
  apply look
  intro kind
  cases kind with
  | none => exact atEnd
  | some kind =>
      dsimp only
      split
      · exact next.bind fun _ => .pure _
      split
      · exact next.bind fun _ => .pure _
      · exact parenthesized
      · exact next.bind fun _ => arrayRest _ _
      · exact .atArray (next.bind fun _ => next.bind fun _ => arrayRest _ _)
      · exact allocation
      · exact closure
      · exact .taken (by simp) closure fun _ => .pure _
      · exact .bind qualifiedName fun _ => .pure _
      · exact .bind qualifiedName fun _ => .pure _
      · exact .bind qualifiedName fun _ => .pure _
      · exact unexpected _

theorem memberName : Sighted d d' s (memberName d) (memberName d') := by
  refine look fun kind => ?_
  split
  · exact next.bind fun _ => .pure _
  · exact next.bind fun _ => (deeper .expression).bind fun _ => (expect _ _).bind fun _ => .pure _
  · exact .bind anyName fun _ => .pure _

theorem access (kind : NodeKind) (base : Draft) :
    Sighted d d' s (access d kind base) (access d' kind base) :=
  next.bind fun _ => .bind memberName fun _ => .pure _

theorem indexed (base : Draft) : Sighted d d' s (indexed d base) (indexed d' base) := by
  refine next.bind fun _ => (accept _).bind fun last => ?_
  cases last with
  | some _ => exact .pure _
  | none => exact (deeper .expression).bind fun _ => (expect _ _).bind fun _ => .pure _

theorem postfixRound (base : Draft) :
    Sighted d d' s (postfixRound d base) (postfixRound d' base) := by
  refine look fun kind => ?_
  split
  · exact .bind (.bind arguments fun _ => .pure _) fun _ => .pure _
  · exact (access _ _).bind fun _ => .pure _
  · exact (access _ _).bind fun _ => .pure _
  · exact (indexed _).bind fun _ => .pure _
  · exact next.bind fun _ => .pure _
  · exact next.bind fun _ => .pure _
  · exact .pure _

theorem postfixed : Sighted d d' s (postfixed d) (postfixed d') :=
  .bind primary fun _ => iterate postfixRound _

theorem power : Sighted d d' s (power d) (power d') := by
  refine .bind postfixed fun base => (accept _).bind fun operator => ?_
  cases operator with
  | some _ => exact (deeper .unary).bind fun _ => .pure _
  | none => exact .pure _

theorem prefixed {operand operand' : Parser Draft} (kind : NodeKind) (image : Nat → Image)
    (h : Sighted d d' none operand operand') :
    Sighted d d' s (prefixed kind image operand) (prefixed kind image operand') :=
  next.bind fun _ => h.bind fun _ => .pure _

theorem cast : Sighted d d' s (cast d) (cast d') :=
  next.bind fun _ => next.bind fun _ => next.bind fun _ => (deeper .unary).bind fun _ => .pure _

theorem unary : Sighted d d' s (unary d) (unary d') := by
  apply look
  intro kind
  split
  iterate 13 exact prefixed _ _ (deeper _)
  · exact .atCast cast power
  · exact power

theorem operandRound (minimum : Nat) (left : Draft) :
    Sighted d d' s (operandRound d minimum left) (operandRound d' minimum left) := by
  refine look fun kind => ?_
  split
  · exact .pure _
  · exact .ite (.pure _) (next.bind fun _ =>
      .ite (.bind classReference fun _ => .pure _) ((deeper _).bind fun _ => .pure _))

theorem operands (minimum : Nat) : Sighted d d' s (operands d minimum) (operands d' minimum) :=
  .bind unary fun _ => iterate (operandRound minimum) _

theorem conditional : Sighted d d' s (conditional d) (conditional d') := by
  refine (operands 0).bind fun condition => (accept _).bind fun question => ?_
  cases question with
  | some question => exact deeper (.branches question condition)
  | none => exact .pure _

theorem referenceMark (kind : TokenKind) :
    Sighted d d' s (referenceMark kind) (referenceMark kind) := .ite (accept _) (.pure _)

theorem assignment : Sighted d d' s (assignment d) (assignment d') := by
  refine .bind conditional fun left => look fun kind => ?_
  cases kind with
  | some kind =>
      exact .ite (next.bind fun _ => (referenceMark kind).bind fun _ =>
        (deeper .assigned).bind fun _ => .pure _) (.pure _)
  | none => exact .pure _

theorem branches (question : Nat) (condition : Draft) :
    Sighted d d' s (branches d question condition) (branches d' question condition) := by
  apply (accept _).bind
  intro colon
  cases colon with
  | some _ => exact .bind assignment fun _ => .pure _
  | none =>
      exact .bind assignment fun _ => (expect _ _).bind fun _ => .bind assignment fun _ => .pure _

theorem joined {operand operand' : Parser Draft} (operator : Keyword)
    (h : Sighted d d' none operand operand') :
    Sighted d d' s (joined operator operand) (joined operator operand') := by
  refine h.of_none.bind fun first => iterate (fun left => (accept _).bind fun operator => ?_) _
  cases operator with
  | some _ => exact h.bind fun _ => .pure _
  | none => exact .pure _

theorem expression : Sighted d d' s (expression d) (expression d') :=
  joined _ (joined _ assignment)

-- Members and the declarations around them.

theorem importKind : Sighted d d' s importKind importKind := by
  refine look fun kind => ?_
  split
  · exact next.bind fun _ => .pure _
  · exact next.bind fun _ => .pure _
  · exact .pure _

theorem importClause : Sighted d d' s importClause importClause := by
  refine .bind qualifiedName fun target => (accept _).bind fun word => ?_
  cases word with
  | some _ => exact (expect _ _).bind fun _ => .pure _
  | none => exact .pure _

theorem useDeclarations : Sighted d d' s useDeclarations useDeclarations :=
  (expect _ _).bind fun _ => .bind importKind fun _ => (commaList importClause).bind fun _ =>
    terminator.bind fun _ => .pure _

theorem namedList {item item' : Option Nat → Parser Draft} (first : Nat)
    (h : ∀ lead, Sighted d d' none (item lead) (item' lead)) :
    Sighted d d' s (namedList first item) (namedList first item') := by
  refine bind (iterate (fun items => (h _).bind fun _ => (accept _).bind fun comma => ?_) _)
    fun _ => terminator.bind fun _ => .pure _
  cases comma with
  | some _ => exact .pure _
  | none => exact .pure _

theorem constants (first : Nat) : Sighted d d' s (constants d first) (constants d' first) :=
  namedList first fun _ => .bind anyName fun _ => (expect _ _).bind fun _ =>
    (deeper .expression).bind fun _ => .pure _

theorem properties (first : Nat) (found : Modifiers) (hint : Option Draft) :
    Sighted d d' s (properties d first found hint) (properties d' first found hint) :=
  namedList first fun _ => (expect _ _).bind fun _ => .bind initial fun _ => .pure _

theorem member : Sighted d d' s (member d) (member d') := by
  refine here.bind fun first => look fun _ => .ite useDeclarations ?_
  refine .bind modifiers fun found => look fun kind => ?_
  split
  · exact next.bind fun _ => constants _
  · exact (method _ _).bind fun _ => .pure _
  · exact .ite (unexpected _) (properties _ _ _)
  iterate 4 exact .ite (unexpected _) (.bind typeHint fun _ => properties _ _ _)
  · exact unexpected _

theorem members : Sighted d d' s (members d) (members d') :=
  (expect _ _).bind fun _ => through _ (deeper .member)

theorem typeReferences (announced : Keyword) (kind : NodeKind) :
    Sighted d d' s (typeReferences announced kind) (typeReferences announced kind) := by
  apply (accept _).bind
  intro word
  cases word with
  | some _ => exact commaList (qualifiedName.map _)
  | none => exact .pure _

theorem classModifiers : Sighted d d' s classModifiers classModifiers := by
  refine iterate (fun found => look fun kind => ?_) _
  split
  · exact next.bind fun _ => .pure _
  · exact next.bind fun _ => .pure _
  · exact .pure _

theorem parentClass : Sighted d d' s parentClass parentClass := by
  refine (accept _).bind fun word => ?_
  cases word with
  | some _ => exact .bind qualifiedName fun _ => .pure _
  | none => exact .pure _

theorem classDeclaration : Sighted d d' s (classDeclaration d) (classDeclaration d') :=
  here.bind fun _ => .bind classModifiers fun _ => (expect _ _).bind fun _ =>
    (expect _ _).bind fun _ => .bind parentClass fun _ => (typeReferences _ _).bind fun _ =>
      .bind members fun _ => .pure _

theorem interfaceDeclaration :
    Sighted d d' s (interfaceDeclaration d) (interfaceDeclaration d') :=
  (expect _ _).bind fun _ => (expect _ _).bind fun _ => (typeReferences _ _).bind fun _ =>
    .bind members fun _ => .pure _

theorem traitDeclaration : Sighted d d' s (traitDeclaration d) (traitDeclaration d') :=
  (expect _ _).bind fun _ => (expect _ _).bind fun _ => .bind members fun _ => .pure _

-- Statements.

theorem body : Sighted d d' s (body d) (body d') := by
  refine here.bind fun first => (deeper .statement).bind fun statement => ?_
  cases statement with
  | some _ => exact .pure _
  | none => exact .pure _

theorem clauses {clause clause' : Nat → Parser Draft} (keyword : Keyword)
    (h : ∀ first, Sighted d d' none (clause first) (clause' first)) :
    Sighted d d' s (clauses keyword clause) (clauses keyword clause') := by
  refine iterate (fun found => (accept _).bind fun word => ?_) _
  cases word with
  | some first => exact (h first).bind fun _ => .pure _
  | none => exact .pure _

theorem clause? {clause clause' : Nat → Parser Draft} (keyword : Keyword)
    (h : ∀ first, Sighted d d' none (clause first) (clause' first)) :
    Sighted d d' s (clause? keyword clause) (clause? keyword clause') := by
  refine (accept _).bind fun word => ?_
  cases word with
  | some first => exact (h first).bind fun _ => .pure _
  | none => exact .pure _

theorem ifStatement : Sighted d d' s (ifStatement d) (ifStatement d') := by
  refine (expect _ _).bind fun _ => .bind parenthesized fun _ => .bind body fun _ => ?_
  refine (clauses _ fun first => ?_).bind fun _ => (clause? _ fun first => ?_).bind fun _ => .pure _
  · exact .bind parenthesized fun _ => .bind body fun _ => .pure _
  · exact .bind body fun _ => .pure _

theorem whileLoop : Sighted d d' s (whileLoop d) (whileLoop d') :=
  (expect _ _).bind fun _ => .bind parenthesized fun _ => .bind body fun _ => .pure _

theorem doWhileLoop : Sighted d d' s (doWhileLoop d) (doWhileLoop d') :=
  (expect _ _).bind fun _ => .bind body fun _ => (expect _ _).bind fun _ =>
    .bind parenthesized fun _ => terminator.bind fun _ => .pure _

theorem forLoop : Sighted d d' s (forLoop d) (forLoop d') :=
  (expect _ _).bind fun _ => (expect _ _).bind fun _ =>
    (closedList _ (deeper .expression)).bind fun _ =>
      (closedList _ (deeper .expression)).bind fun _ =>
        (closedList _ (deeper .expression)).bind fun _ => .bind body fun _ => .pure _

theorem foreachValue : Sighted d d' s (foreachValue d) (foreachValue d') := by
  apply (accept _).bind
  intro arrow
  cases arrow with
  | some _ => exact (accept _).bind fun _ => (deeper .expression).bind fun _ => .pure _
  | none => exact .pure _

theorem foreachLoop : Sighted d d' s (foreachLoop d) (foreachLoop d') :=
  (expect _ _).bind fun _ => (expect _ _).bind fun _ => (deeper .expression).bind fun _ =>
    (expect _ _).bind fun _ => (accept _).bind fun _ => (deeper .expression).bind fun _ =>
      .bind foreachValue fun _ => (expect _ _).bind fun _ => .bind body fun _ => .pure _

theorem switchCases : Sighted d d' s (switchCases d) (switchCases d') := by
  refine iterate (fun cases => (accept _).bind fun last => ?_) _
  cases last with
  | some _ => exact .pure _
  | none => exact (deeper .switchCase).bind fun _ => .pure _

theorem switchStatement : Sighted d d' s (switchStatement d) (switchStatement d') :=
  (expect _ _).bind fun _ => .bind parenthesized fun _ => (expect _ _).bind fun _ =>
    .bind switchCases fun _ => .pure _

theorem caseStatements : Sighted d d' s (caseStatements d) (caseStatements d') := by
  refine iterate (fun found => look fun kind => ?_) _
  split
  · exact atEnd
  · exact .pure _
  · exact .pure _
  · exact .pure _
  · exact (deeper .statement).bind fun _ => .pure _

theorem caseRest (kind : NodeKind) (first : Nat) (value : List Draft) :
    Sighted d d' s (caseRest d kind first value) (caseRest d' kind first value) := by
  have caseMark : Sighted d d' s caseMark caseMark := by
    apply look
    intro kind
    split
    · exact next
    · exact next
    · exact unexpected _
  exact caseMark.bind fun _ => .bind caseStatements fun _ => .pure _

theorem switchCase : Sighted d d' s (switchCase d) (switchCase d') := by
  refine look fun kind => ?_
  split
  · exact next.bind fun _ => (deeper .expression).bind fun _ => caseRest _ _ _
  · exact next.bind fun _ => caseRest _ _ _
  · exact unexpected _

theorem caughtTypes : Sighted d d' s caughtTypes caughtTypes := by
  refine iterate (fun types => .bind qualifiedName fun _ => (accept _).bind fun bar => ?_) _
  cases bar with
  | some _ => exact .pure _
  | none => exact .pure _

theorem catchClause (first : Nat) : Sighted d d' s (catchClause d first) (catchClause d' first) :=
  (expect _ _).bind fun _ => .bind caughtTypes fun _ => (accept _).bind fun _ =>
    (expect _ _).bind fun _ => .bind block fun _ => .pure _

theorem tryStatement : Sighted d d' s (tryStatement d) (tryStatement d') := by
  refine (expect _ _).bind fun _ => .bind block fun _ => (clauses _ catchClause).bind fun _ => ?_
  refine (clause? _ fun first => ?_).bind fun _ => .ite (unexpected _) (.pure _)
  exact .bind block fun _ => .pure _

theorem returnStatement : Sighted d d' s (returnStatement d) (returnStatement d') := by
  refine (expect _ _).bind fun _ => bind ?_ fun _ => terminator.bind fun _ => .pure _
  refine look fun kind => ?_
  split
  · exact .pure _
  · exact .pure _
  · exact (deeper .expression).bind fun _ => .pure _

theorem throwStatement : Sighted d d' s (throwStatement d) (throwStatement d') :=
  (expect _ _).bind fun _ => (deeper .expression).bind fun _ => terminator.bind fun _ => .pure _

theorem echoStatement : Sighted d d' s (echoStatement d) (echoStatement d') :=
  (expect _ _).bind fun _ => (commaList (deeper .expression)).bind fun _ =>
    terminator.bind fun _ => .pure _

theorem jump (kind : NodeKind) : Sighted d d' s (jump kind) (jump kind) :=
  next.bind fun _ => (accept _).bind fun _ => terminator.bind fun _ => .pure _

theorem globalStatement : Sighted d d' s globalStatement globalStatement :=
  (expect _ _).bind fun _ => (commaList variable_).bind fun _ => terminator.bind fun _ => .pure _

theorem staticVariable : Sighted d d' s (staticVariable d) (staticVariable d') := by
  refine .bind variable_ fun target => (accept _).bind fun operator => ?_
  cases operator with
  | some _ => exact (deeper .expression).bind fun _ => .pure _
  | none => exact .pure _

theorem staticVariables : Sighted d d' s (staticVariables d) (staticVariables d') :=
  (expect _ _).bind fun _ => (commaList staticVariable).bind fun _ =>
    terminator.bind fun _ => .pure _

theorem expressionStatement : Sighted d d' s (expressionStatement d) (expressionStatement d') :=
  (deeper .expression).bind fun _ => terminator.bind fun _ => .pure _

theorem fullStatement (kind : TokenKind) :
    Sighted d d' (some (some kind)) (fullStatement d kind) (fullStatement d' kind) := by
  unfold Parser.fullStatement
  split
  · exact block
  · exact ifStatement
  · exact whileLoop
  · exact doWhileLoop
  · exact switchStatement
  · exact forLoop
  · exact foreachLoop
  · exact tryStatement
  · exact returnStatement
  · exact throwStatement
  · exact echoStatement
  · exact jump _
  · exact jump _
  · exact globalStatement
  · exact .atStatic staticVariables expressionStatement
  iterate 3 exact classDeclaration
  · exact interfaceDeclaration
  · exact traitDeclaration
  · exact .atFunction function expressionStatement
  · exact expressionStatement

theorem statement : Sighted d d' s (statement d) (statement d') := by
  apply look
  intro kind
  split
  · exact atEnd
  · exact next.bind fun _ => .pure _
  · exact next.bind fun _ => .pure _
  · exact (fullStatement _).bind fun _ => .pure _

-- Files.

theorem topStatement : Sighted d d' s (topStatement d) (topStatement d') := by
  refine look fun kind => ?_
  split
  · exact useDeclarations
  · exact next.bind fun _ => constants _
  · exact (deeper .statement).bind fun _ => .pure _

theorem openStatements : Sighted d d' s (openStatements d) (openStatements d') := by
  refine iterate (fun found => look fun kind => ?_) _
  split
  · exact .pure _
  · exact .pure _
  · exact .bind topStatement fun _ => .pure _

theorem namespaceDeclaration :
    Sighted d d' s (namespaceDeclaration d) (namespaceDeclaration d') := by
  have image : Sighted d d' none namespaceImage namespaceImage :=
    look fun _ => .ite (.pure _) (.bind qualifiedName fun _ => .pure _)
  refine (expect _ _).bind fun _ => image.bind fun _ => (accept _).bind fun brace => ?_
  cases brace with
  | some _ => exact (through _ topStatement).bind fun _ => .pure _
  | none => exact terminator.bind fun _ => .bind openStatements fun _ => .pure _

theorem file : Sighted d d' s (file d) (file d') := by
  refine iterate (fun found => look fun kind => ?_) _
  cases kind with
  | none => exact .pure _
  | some kind =>
      exact .atNamespace (.bind namespaceDeclaration fun _ => .pure _)
        (.bind topStatement fun _ => .pure _)

theorem production (goal : Goal) : Sighted d d' s (goal.production d) (goal.production d') := by
  cases goal with
  | statement => exact statement
  | member => exact member
  | switchCase => exact switchCase
  | expression => exact expression
  | assigned => exact assignment
  | branches question condition => exact branches question condition
  | operands minimum => exact operands minimum
  | unary => exact unary

end Sighted

namespace Parallel

variable {d d' : Deeper}

theorem topStatement : Parallel d d' (topStatement d) (topStatement d') :=
  (Sighted.topStatement (s := none)).parallel

theorem file : Parallel d d' (file d) (file d') := (Sighted.file (s := none)).parallel

theorem production (goal : Goal) : Parallel d d' (goal.production d) (goal.production d') :=
  (Sighted.production goal (s := none)).parallel

end Parallel

end Census.Grammar.Parser
