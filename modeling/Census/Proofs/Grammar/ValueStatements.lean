import Census.Proofs.Grammar.StatementPlacement
import Census.Proofs.Grammar.ValueProductions

namespace Census.Grammar

namespace Parser

namespace Shows

variable {s : Input} {d : Deeper}

-- Declarations and their members.

theorem importClause : Shows importClause s := by
  refine .plain qualifiedName fun target t => .skip rfl fun o u => ?_
  cases o with
  | some _ => exact .take rfl fun short v => .pure (by simp [NodeKind.isValue])
  | none => exact .pure (by simp [NodeKind.isValue])

theorem useDeclarations : ShowsAll useDeclarations s := by
  have kind (t : Input) : Gives importKind t fun _ taken => taken = [] := by
    refine .ahead ?_
    split
    · exact .pass ‹_› rfl fun _ _ _ => .pure rfl
    · exact .pass ‹_› rfl fun _ _ _ => .pure rfl
    · exact .pure rfl
  refine .take rfl fun _ t => .plain (kind t) fun _ u => ?_
  exact (commaList fun v => importClause).bind fun clauses v =>
    .plain .terminator fun _ w => .pure (by simp)

theorem namedList {first : Nat} {item : Option Nat → Parser Draft}
    (h : ∀ lead t, Shows (item lead) t) : ShowsAll (namedList first item) s := by
  have items : ShowsAll (namedItems first item) s := by
    refine Gives.iterate (fun items taken => Draft.valuesAll items = taken) rfl ?_
    rintro items t _ rfl
    refine (h _ t).bind fun d u => .skip rfl fun o v => ?_
    cases o <;> exact .pure (by simp)
  exact items.bind fun ds t => .plain .terminator fun _ u => .pure (by simp)

theorem constants (hd : d.Showing) (first : Nat) : ShowsAll (constants d first) s := by
  refine namedList fun lead t => .plain anyName fun name u => .take rfl fun _ v => ?_
  exact Shows.bind (hd .expression v) fun value w => .pure (by simp [named, NodeKind.isValue])

-- The name of a property is a value; its type, which stands in front of all names, shows none.
theorem properties (hd : d.Showing) (first : Nat) (found : Modifiers) {hint : Option Draft}
    (hhint : Draft.valuesAll hint.toList = []) : ShowsAll (properties d first found hint) s := by
  refine namedList fun lead t => (Gives.expect _ _).bind ?_
  rintro name u _ rfl
  refine (initial hd).bind fun value v => .pure ?_
  simp [named, NodeKind.isValue, TokenKind.isValue, hhint]

theorem member (hd : d.Showing) : ShowsAll (member d) s := by
  refine .here (.ahead (.ite (fun _ => useDeclarations) fun _ => ?_))
  refine .plain modifiers fun found t => ?_
  have typed : ShowsAll (if found.isEmpty then Parser.unexpected .classMember else do
      let hint ← Parser.typeHint
      Parser.properties d s.index found (some hint)) t := by
    refine .ite (fun _ => .unexpected _) fun _ => Gives.bind typeHint ?_
    rintro hint u _ ⟨hhint, rfl⟩
    exact properties hd _ found (by simp [hhint])
  refine .ahead ?_
  split
  · exact .pass ‹_› rfl fun _ u _ => constants hd _
  · exact (method hd _ found).bind fun m u => .pure (by simp)
  · exact .ite (fun _ => .unexpected _) fun _ => properties hd _ found rfl
  · exact typed
  · exact typed
  · exact typed
  · exact typed
  · exact .unexpected _

theorem members (hd : d.Showing) : ShowsUpTo (members d) s :=
  .take rfl fun _ _ => through fun u => hd .member u

theorem typeReferences (announced : Keyword) {kind : NodeKind} (h : kind.isValue = false) :
    ShowsAll (typeReferences announced kind) s := by
  refine .skip rfl fun o t => ?_
  cases o with
  | none => exact .pure rfl
  | some _ =>
      exact commaList fun u => .plain qualifiedName fun name v => .pure (values_name kind h name)

theorem parentClass : ShowsAny parentClass s := by
  refine .skip rfl fun o t => ?_
  cases o with
  | none => exact .pure rfl
  | some _ =>
      refine .plain qualifiedName fun name u => .pure ?_
      simp [values_name .parentClass rfl]

theorem classModifiers : Gives classModifiers s fun _ taken => taken = [] := by
  refine Gives.iterate (fun _ taken => taken = []) rfl ?_
  rintro found t _ rfl
  refine .ahead ?_
  split
  · exact .pass ‹_› rfl fun _ _ _ => .pure rfl
  · exact .pass ‹_› rfl fun _ _ _ => .pure rfl
  · exact .pure rfl

theorem classDeclaration (hd : d.Showing) : Shows (classDeclaration d) s := by
  refine .here (.plain classModifiers fun _ t => .take rfl fun _ u => .take rfl fun name v => ?_)
  refine parentClass.bind fun parent w => (typeReferences _ rfl).bind fun interfaces x => ?_
  exact (members hd).bind fun r y => .pure (by simp [NodeKind.isValue])

theorem interfaceDeclaration (hd : d.Showing) : Shows (interfaceDeclaration d) s := by
  refine .take rfl fun first t => .take rfl fun name u => ?_
  refine (typeReferences _ rfl).bind fun parents v => ?_
  exact (members hd).bind fun r w => .pure (by simp [NodeKind.isValue])

theorem traitDeclaration (hd : d.Showing) : Shows (traitDeclaration d) s := by
  refine .take rfl fun first t => .take rfl fun name u => ?_
  exact (members hd).bind fun r v => .pure (by simp [NodeKind.isValue])

-- Statements.

theorem body (hd : d.Showing) : Shows (body d) s := by
  refine .here (ShowsAny.bind (hd .statement s) fun o t => ?_)
  cases o with
  | some _ => exact .pure (by simp)
  | none => exact .pure (by simp [NodeKind.isValue])

theorem clauses (keyword : Keyword) {clause : Nat → Parser Draft}
    (h : ∀ first t, Shows (clause first) t) : ShowsAll (clauses keyword clause) s := by
  refine Gives.iterate (fun found taken => Draft.valuesAll found = taken) rfl ?_
  rintro found t _ rfl
  refine .skip rfl fun o u => ?_
  cases o with
  | some first => exact (h first u).bind fun d v => .pure (by simp)
  | none => exact .pure (by simp)

theorem clause? (keyword : Keyword) {clause : Nat → Parser Draft}
    (h : ∀ first t, Shows (clause first) t) : ShowsAny (clause? keyword clause) s := by
  refine .skip rfl fun o t => ?_
  cases o with
  | some first => exact (h first t).bind fun d u => .pure (by simp)
  | none => exact .pure rfl

theorem ifStatement (hd : d.Showing) : Shows (ifStatement d) s := by
  have elseIf (first : Nat) (t : Input) : Shows (elseIfBranch d first) t :=
    (parenthesized hd).bind fun condition u => (body hd).bind fun body v =>
      .pure (by simp [NodeKind.isValue])
  have otherwise (first : Nat) (t : Input) : Shows (elseBranch d first) t :=
    (body hd).bind fun body u => .pure (by simp [NodeKind.isValue])
  refine .take rfl fun first t => (parenthesized hd).bind fun condition u => ?_
  refine (body hd).bind fun chosen v => (clauses .kwElseif elseIf).bind fun elseIfs w => ?_
  exact (clause? .kwElse otherwise).bind fun final x => .pure (by simp [NodeKind.isValue])

theorem whileLoop (hd : d.Showing) : Shows (whileLoop d) s := by
  refine .take rfl fun first t => (parenthesized hd).bind fun condition u => ?_
  exact (body hd).bind fun body v => .pure (by simp [NodeKind.isValue])

theorem doWhileLoop (hd : d.Showing) : Shows (doWhileLoop d) s := by
  refine .take rfl fun first t => (body hd).bind fun body u => .take rfl fun _ v => ?_
  refine (parenthesized hd).bind fun condition w => .plain .terminator fun last x => ?_
  exact .pure (by simp [NodeKind.isValue])

theorem forLoop (hd : d.Showing) : Shows (forLoop d) s := by
  have list (close : Symbol) (t : Input) : ShowsUpTo (Parser.closedList close (d .expression)) t :=
    closedList fun u => hd .expression u
  refine .take rfl fun first t => .take rfl fun _ u => (list _ u).bind fun starts v => ?_
  refine (list _ v).bind fun conditions w => (list _ w).bind fun steps x => ?_
  exact (body hd).bind fun body y => .pure (by simp [NodeKind.isValue])

theorem foreachValue (hd : d.Showing) : ShowsAny (foreachValue d) s := by
  refine .skip rfl fun o t => ?_
  cases o with
  | none => exact .pure rfl
  | some _ =>
      exact .skip rfl fun _ u => Shows.bind (hd .expression u) fun value v => .pure (by simp)

theorem foreachLoop (hd : d.Showing) : Shows (foreachLoop d) s := by
  refine .take rfl fun first t => .take rfl fun _ u => Shows.bind (hd .expression u) fun subject v => ?_
  refine .take rfl fun _ w => .skip rfl fun _ x => Shows.bind (hd .expression x) fun target y => ?_
  refine (foreachValue hd).bind fun value z => .take rfl fun _ z' => ?_
  exact (body hd).bind fun body _ => .pure (by simp [NodeKind.isValue])

theorem switchCases (hd : d.Showing) : ShowsUpTo (switchCases d) s := by
  refine Gives.iterate (fun cases taken => Draft.valuesAll cases = taken) rfl ?_
  rintro cases t _ rfl
  refine .skip rfl fun o u => ?_
  cases o with
  | some last => exact .pure (by simp)
  | none => exact Shows.bind (hd .switchCase u) fun branch v => .pure (by simp)

theorem switchStatement (hd : d.Showing) : Shows (switchStatement d) s := by
  refine .take rfl fun first t => (parenthesized hd).bind fun subject u => .take rfl fun _ v => ?_
  exact (switchCases hd).bind fun r w => .pure (by simp [NodeKind.isValue])

theorem caseStatements (hd : d.Showing) : ShowsAll (caseStatements d) s := by
  refine Gives.iterate (fun found taken => Draft.valuesAll found = taken) rfl ?_
  rintro found t _ rfl
  refine .ahead ?_
  split
  · exact .fail _
  · exact .pure (by simp)
  · exact .pure (by simp)
  · exact .pure (by simp)
  · exact ShowsAny.bind (hd .statement t) fun o u => .pure (by simp)

theorem caseRest (hd : d.Showing) {kind : NodeKind} (h : kind.isValue = false) (first : Nat)
    (value : List Draft) : Gives (caseRest d kind first value) s fun r taken =>
      r.values = Draft.valuesAll value ++ taken := by
  have mark : Gives caseMark s fun _ taken => taken = [] := by
    refine .ahead ?_
    split
    · exact Gives.next ‹_›
    · exact Gives.next ‹_›
    · exact .unexpected _
  exact .plain mark fun _ t => (caseStatements hd).bind fun statements u => .pure (by simp [h])

theorem switchCase (hd : d.Showing) : Shows (switchCase d) s := by
  refine .ahead ?_
  split
  · refine .pass ‹_› rfl fun first t _ => Shows.bind (hd .expression t) fun value u => ?_
    exact (caseRest hd rfl first [value]).mono fun r taken hr => by simpa using hr
  · exact .pass ‹_› rfl fun first t _ => caseRest hd rfl first []
  · exact .unexpected _

theorem caughtTypes : ShowsAll caughtTypes s := by
  refine Gives.iterate (fun types taken => Draft.valuesAll types = taken) rfl ?_
  rintro types t _ rfl
  refine .plain qualifiedName fun name u => .skip rfl fun o v => ?_
  cases o <;> exact .pure (by simp [values_name .typeHint rfl])

-- A single terminal that may be missing, as a leaf of its own.
theorem leaf? (token : TokenKind) (kind : NodeKind) (h : kind.isValue = token.isValue) :
    Gives (accept token) s fun o taken =>
      Draft.valuesAll (o.map (Draft.leaf kind)).toList = taken := by
  refine (Gives.accept token).mono fun o taken htaken => ?_
  rw [htaken]
  cases o <;> simp [h]

theorem catchClause (hd : d.Showing) (first : Nat) : Shows (catchClause d first) s := by
  refine .take rfl fun _ t => caughtTypes.bind fun types u => Gives.bind (leaf? _ .variableName rfl) ?_
  rintro caught v _ rfl
  refine .take rfl fun _ w => (block hd).bind fun block x => .pure (by simp [NodeKind.isValue])

theorem tryStatement (hd : d.Showing) : Shows (tryStatement d) s := by
  have final (first : Nat) (t : Input) : Shows (finallyClause d first) t :=
    (block hd).bind fun block u => .pure (by simp [NodeKind.isValue])
  refine .take rfl fun first t => (block hd).bind fun guarded u => ?_
  refine (clauses .kwCatch fun first v => catchClause hd first).bind fun catches v => ?_
  refine (clause? .kwFinally final).bind fun final w => .ite (fun _ => .unexpected _) fun _ => ?_
  exact .pure (by simp [NodeKind.isValue])

theorem returnStatement (hd : d.Showing) : Shows (returnStatement d) s := by
  have value (t : Input) : ShowsAny (returnValue d) t := by
    refine .ahead ?_
    split
    · exact .pure rfl
    · exact .pure rfl
    · exact Shows.bind (hd .expression t) fun value u => .pure (by simp)
  refine .take rfl fun first t => (value t).bind fun value u => .plain .terminator fun last v => ?_
  exact .pure (by simp [NodeKind.isValue])

theorem throwStatement (hd : d.Showing) : Shows (throwStatement d) s := by
  refine .take rfl fun first t => Shows.bind (hd .expression t) fun value u => ?_
  exact .plain .terminator fun last v => .pure (by simp [NodeKind.isValue])

theorem echoStatement (hd : d.Showing) : Shows (echoStatement d) s := by
  refine .take rfl fun first t => (commaList fun u => hd .expression u).bind fun values u => ?_
  exact .plain .terminator fun last v => .pure (by simp [NodeKind.isValue])

theorem jump {kind : NodeKind} (h : kind.isValue = false) {token : TokenKind}
    (htoken : (s.rest[0]?).map (·.kind) = some token) (hplain : token.isValue = false) :
    Shows (jump kind) s := by
  refine .pass htoken hplain fun first t _ => Gives.bind (leaf? _ (.literal .integer) rfl) ?_
  rintro count u _ rfl
  exact .plain .terminator fun last v => .pure (by simp [h])

theorem globalStatement : Shows globalStatement s := by
  refine .take rfl fun first t => (commaList fun u => variable_).bind fun names u => ?_
  exact .plain .terminator fun last v => .pure (by simp [NodeKind.isValue])

theorem staticVariables (hd : d.Showing) : Shows (staticVariables d) s := by
  have item (t : Input) : Shows (staticVariable d) t := by
    refine variable_.bind fun target u => .skip rfl fun o v => ?_
    cases o with
    | none => exact .pure (by simp)
    | some operator =>
        refine Shows.bind (hd .expression v) fun value w => .pure ?_
        simp [Draft.values_joining .assignment rfl]
  refine .take rfl fun first t => (commaList item).bind fun items u => ?_
  exact .plain .terminator fun last v => .pure (by simp [NodeKind.isValue])

theorem expressionStatement (hd : d.Showing) : Shows (expressionStatement d) s := by
  refine Shows.bind (hd .expression s) fun value t => ?_
  exact .plain .terminator fun last u => .pure (by simp [NodeKind.isValue])

theorem fullStatement (hd : d.Showing) {kind : TokenKind}
    (hkind : (s.rest[0]?).map (·.kind) = some kind) : Shows (fullStatement d kind) s := by
  have atFunction : Gives atFunction s fun _ taken => taken = [] :=
    .ahead (.ite (fun _ => .pure rfl) fun _ => .ahead (.ahead (.pure rfl)))
  unfold Parser.fullStatement
  split
  · exact block hd
  · exact ifStatement hd
  · exact whileLoop hd
  · exact doWhileLoop hd
  · exact switchStatement hd
  · exact forLoop hd
  · exact foreachLoop hd
  · exact tryStatement hd
  · exact returnStatement hd
  · exact throwStatement hd
  · exact echoStatement hd
  · exact jump rfl hkind rfl
  · exact jump rfl hkind rfl
  · exact globalStatement
  · exact .ahead (.ite (fun _ => staticVariables hd) fun _ => expressionStatement hd)
  · exact classDeclaration hd
  · exact classDeclaration hd
  · exact classDeclaration hd
  · exact interfaceDeclaration hd
  · exact traitDeclaration hd
  · exact .plain atFunction fun _ t => .ite (fun _ => function hd) fun _ => expressionStatement hd
  · exact expressionStatement hd

theorem statement (hd : d.Showing) : ShowsAny (statement d) s := by
  refine .ahead ?_
  split
  · exact .fail _
  · exact .pass ‹_› rfl fun _ _ _ => .pure rfl
  · exact .pass ‹_› rfl fun _ _ _ => .pure rfl
  · exact (fullStatement hd ‹_›).bind fun d t => .pure (by simp)

-- Files.

theorem topStatement (hd : d.Showing) : ShowsAll (topStatement d) s := by
  refine .ahead ?_
  split
  · exact useDeclarations
  · exact .pass ‹_› rfl fun first t _ => constants hd first
  · exact ShowsAny.bind (hd .statement s) fun o t => .pure (by simp)

theorem openStatements (hd : d.Showing) : ShowsAll (openStatements d) s := by
  refine Gives.iterate (fun found taken => Draft.valuesAll found = taken) rfl ?_
  rintro found t _ rfl
  refine .ahead ?_
  split
  · exact .pure (by simp)
  · exact .pure (by simp)
  · exact (topStatement hd).bind fun more u => .pure (by simp)

theorem namespaceDeclaration (hd : d.Showing) : Shows (namespaceDeclaration d) s := by
  have image (t : Input) : Gives namespaceImage t fun _ taken => taken = [] :=
    .ahead (.ite (fun _ => .pure rfl) fun _ => .plain qualifiedName fun _ _ => .pure rfl)
  refine .take rfl fun first t => .plain (image t) fun image u => .skip rfl fun o v => ?_
  cases o with
  | some _ => exact (through fun w => topStatement hd).bind fun r w => .pure (by simp [NodeKind.isValue])
  | none =>
      refine .plain .terminator fun mark w => (openStatements hd).bind fun statements x => ?_
      exact .pure (by simp [NodeKind.isValue])

theorem file (hd : d.Showing) : ShowsAll (file d) s := by
  refine Gives.iterate (fun found taken => Draft.valuesAll found = taken) rfl ?_
  rintro found t _ rfl
  refine .ahead ?_
  split
  · exact .pure (by simp)
  · refine .ahead (.ite (fun _ => ?_) fun _ => ?_)
    · exact (namespaceDeclaration hd).bind fun d u => .pure (by simp)
    · exact (topStatement hd).bind fun more u => .pure (by simp)

end Shows

-- A file is read to its end.
theorem file_ends {levels : Nat} (room : Nat) {d : Deeper} (s : Input) (hd : d.Placing levels)
    (hr : 2 * s.stop + 2 ≤ room + 2 * s.index) :
    Run levels room (file d) s fun _ t => t.rest = [] := by
  refine .iterate (fun _ _ => True) trivial fun found t _ _ _ => .looking ?_
  cases ht : t.rest with
  | nil => exact .pure ht
  | cons m rest =>
      refine .ahead fun _ => .ite ?_ ?_
      · exact (Puts.namespaceDeclaration hd (by omega)).bind fun _ _ _ _ _ => .pure trivial
      · exact (Puts.topStatement hd (by omega)).bind fun _ _ _ _ _ => .pure trivial

end Parser

theorem Goal.production_shows {d : Deeper} (hd : d.Showing) (goal : Goal) (s : Input) :
    Parser.Gives (goal.production d) s goal.Shows := by
  cases goal with
  | statement => exact Parser.Shows.statement hd
  | member => exact Parser.Shows.member hd
  | switchCase => exact Parser.Shows.switchCase hd
  | expression => exact Parser.Shows.expression hd
  | assigned => exact Parser.Shows.assignment hd
  | branches question condition => exact Parser.Shows.branches hd question condition
  | operands minimum => exact Parser.Shows.operands hd minimum
  | unary => exact Parser.Shows.unary hd

-- By induction on the levels: every goal shows the values it takes, given that the goals one
-- level deeper do.
theorem parse_showing (levels : Nat) : (parse levels).Showing := by
  induction levels with
  | zero => rintro goal s r t - ⟨⟩
  | succ levels ih => exact fun goal s => Goal.production_shows ih goal s

-- A file that has a tree is read through its last terminal.
theorem file_of_parseFile {levels : Nat} {terminals : List Terminal} {drafts : List Draft}
    (h : parseFile levels terminals = .ok drafts) :
    Parser.file (parse levels) ⟨0, terminals⟩ = .ok (drafts, ⟨terminals.length, []⟩) := by
  have hends := Parser.file_ends (2 * terminals.length + 2) ⟨0, terminals⟩ (parse_placing levels)
    (by simp [Input.stop])
  simp only [Parser.Run] at hends
  simp only [parseFile] at h
  cases hf : Parser.file (parse levels) ⟨0, terminals⟩ with
  | error e => simp [hf] at h
  | ok r =>
      obtain ⟨found, index, rest⟩ := r
      rw [hf] at h hends
      obtain ⟨-, hstop, rfl⟩ := hends
      obtain rfl := Except.ok.inj h
      simp only [Input.stop, List.length_nil, Nat.add_zero, Nat.zero_add] at hstop
      rw [hstop]

-- The nodes of a file show its values, each of them once and in order.
theorem parseFile_values {levels : Nat} {terminals : List Terminal} {drafts : List Draft}
    (hproper : Input.Proper ⟨0, terminals⟩) (h : parseFile levels terminals = .ok drafts) :
    Draft.valuesAll drafts = valuesFrom 0 terminals := by
  obtain ⟨-, taken, htaken, hshows⟩ :=
    Parser.Shows.file (parse_showing levels) drafts _ hproper (file_of_parseFile h)
  rw [hshows, ← List.append_nil taken]
  exact htaken.symm

end Census.Grammar
