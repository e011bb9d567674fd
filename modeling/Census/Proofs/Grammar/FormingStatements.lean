import Census.Proofs.Grammar.FormingExpressions

namespace Census.Grammar

open NodeKind (isExpression isStatement isMember isItem isTop isCase isStatic only)

variable {ts : List Terminal} {b i : Nat}

-- What a name is told of the beginning of its declaration: the first name is told where that is,
-- and any other name, which stands behind a comma, nothing.
def Leads (ts : List Terminal) (first : Nat) (lead : Option Nat) (i : Nat) : Prop :=
  lead = some first ∨ lead = none ∧ ∃ k, k + 1 = i ∧ kindAt ts k = some (.symbol .comma)

theorem Leads.documents {first last : Nat} {lead : Option Nat} {kind : NodeKind} {found : Modifiers}
    (h : Leads ts first lead i) (hkind : kind.isListed = true) (hfresh : Fresh ts first) :
    Documents ts (Parser.named kind found lead i last []).label := by
  rcases h with rfl | ⟨rfl, hcomma⟩
  · exact .leading hkind rfl hfresh
  · exact .following hkind rfl hcomma

namespace Parser.Forming

-- Imports and declarations.

theorem importClause : Builds ts importClause i fun r _ => Sound ts (b + 2) (only .useDecl) r := by
  refine qualifiedName.bind fun target _ htarget => .accept (fun _ => identifier fun hshort => ?_) ?_
  · have hleaf : Whole ts (b + 1) (only .identifier) _ _ (Draft.leaf .identifier _) :=
      .leaf (.word hshort) rfl rfl
    exact .pure (.node (.named htarget.bare rfl) (.given hleaf.toSound .nil) rfl)
  · exact .pure (.node (.named htarget.bare rfl) (.without .nil) rfl)

theorem useDeclarations : Builds ts useDeclarations i fun ds j =>
    SoundAll ts (b + 2) (only .useDecl) ds ∧ Fresh ts j := by
  have importKind (k : Nat) : Builds ts importKind k fun _ _ => True := by
    refine .ahead ?_
    split
    · exact .next (.pure trivial)
    · exact .next (.pure trivial)
    · exact .pure trivial
  refine .expect fun _ => (importKind _).bind fun _ _ _ => ?_
  exact (commaList fun _ => importClause).bind fun _ _ hds =>
    .terminator fun hstops => .pure ⟨hds.1, hstops.fresh⟩

theorem namedList {takes : NodeKind → Bool} {first : Nat} {item : Option Nat → Parser Draft}
    (h : ∀ lead k, Leads ts first lead k → Builds ts (item lead) k fun r _ => Sound ts b takes r) :
    Builds ts (namedList first item) i fun ds j => SoundAll ts b takes ds ∧ Fresh ts j := by
  have items : Builds ts (namedItems first item) i fun ds _ => SoundAll ts b takes ds := by
    refine .iterate (fun items k => SoundAll ts b takes items ∧ (items ≠ [] →
      ∃ m, m + 1 = k ∧ kindAt ts m = some (.symbol .comma))) ⟨.nil, fun h => absurd rfl h⟩ ?_
    rintro items k ⟨hitems, hcomma⟩
    have hlead : Leads ts first (if items.isEmpty then some first else none) k := by
      cases items with
      | nil => exact .inl rfl
      | cons e rest => exact .inr ⟨rfl, hcomma (List.cons_ne_nil e rest)⟩
    refine (h _ k hlead).bind fun d m hd => ?_
    have hall : SoundAll ts b takes (items ++ [d]) := hitems.append (.single hd)
    exact .accept (fun hkind => .pure ⟨hall, fun _ => ⟨m, rfl, hkind⟩⟩) (.pure hall)
  exact items.bind fun _ _ hds => .terminator fun hstops => .pure ⟨hds, hstops.fresh⟩

theorem typeReferences (announced : Keyword) {kind : NodeKind} (hslots : kind.slots = [])
    (hrefers : kind.refers = true) : Builds ts (typeReferences announced kind) i fun ds _ =>
      SoundAll ts (b + 1) (only kind) ds := by
  have reference (k : Nat) : Builds ts (Name.node kind <$> Parser.qualifiedName) k fun r _ =>
      Sound ts (b + 1) (only kind) r :=
    .map (qualifiedName.mono fun _ _ h => (h.node hslots (.inl hrefers) (by simp [only])).toSound)
  exact .accept (fun _ => (commaList reference).mono fun _ _ hds => hds.1) (.pure .nil)

theorem classModifiers : Builds ts classModifiers i fun _ _ => True := by
  refine .iterate (fun _ _ => True) trivial fun found k _ => .ahead ?_
  split
  · exact .next (.pure trivial)
  · exact .next (.pure trivial)
  · exact .pure trivial

theorem parentClass : Builds ts parentClass i fun o _ =>
    SoundAll ts (b + 1) (only .parentClass) o.toList :=
  .accept (fun _ => qualifiedName.bind fun _ _ h => .pure (.single (h.node rfl (.inl rfl) rfl).toSound))
    (.pure .nil)

section Goals

variable {d : Deeper} (hd : d.Forming ts b)
include hd

theorem constants {first : Nat} (hfresh : Fresh ts first) :
    Builds ts (constants d first) i fun ds j =>
      SoundAll ts (b + 1) (only .constant) ds ∧ Fresh ts j := by
  refine namedList fun lead k hlead => anyName.bind fun name _ hname => .expect fun _ => ?_
  obtain ⟨rfl, -, hname⟩ := hname
  refine (expressions hd).bind fun value _ hvalue => .pure ?_
  exact .node (.declares (fun _ => hname.wordy) (hlead.documents rfl hfresh) rfl) (.one hvalue .nil) rfl

theorem properties {first : Nat} (hfresh : Fresh ts first) (found : Modifiers) (hint : Option Draft)
    (hhint : SoundAll ts (b + 1) (only .typeHint) hint.toList) :
    Builds ts (properties d first found hint) i fun ds j =>
      SoundAll ts (b + 2) (only .property) ds ∧ Fresh ts j := by
  refine namedList fun lead k hlead => .expect fun _ => (initial hd).bind fun value _ hvalue => .pure ?_
  refine .node (.declares nofun (hlead.documents rfl hfresh) rfl) (.optional hhint ?_) rfl
  exact (Fills.optional (hvalue.mono (Nat.le_succ b)) .nil).last

theorem member (hfresh : Fresh ts i) : Builds ts (member d) i fun ds j =>
    SoundAll ts (b + 3) isMember ds ∧ Fresh ts j := by
  have is {kind : NodeKind} (hkind : isMember kind = true) {n j : Nat} (hn : n ≤ b + 3)
      {ds : List Draft} (h : SoundAll ts n (only kind) ds ∧ Fresh ts j) :
      SoundAll ts (b + 3) isMember ds ∧ Fresh ts j :=
    ⟨fun e he => ((h.1 e he).mono hn).of_only hkind, h.2⟩
  refine .here (.ahead (.ite (fun _ => ?_) fun _ => modifiers.bind fun found k _ => .ahead ?_))
  · exact (useDeclarations (b := b)).mono fun _ _ h => is rfl (by omega) h
  · have typed : Builds ts (do
        if found.isEmpty then Parser.unexpected .classMember
        else
          let hint ← Parser.typeHint
          Parser.properties d i found (some hint)) k fun ds j =>
            SoundAll ts (b + 3) isMember ds ∧ Fresh ts j :=
      .ite (fun _ => .unexpected _) fun _ => (typeHint (b := b)).bind fun hint _ hhint =>
        (properties hd hfresh found (some hint) (.single hhint)).mono fun _ _ h => is rfl (by omega) h
    split
    · exact .next ((constants hd hfresh).mono fun _ _ h => is rfl (by omega) h)
    · exact (method hd i found).bind fun _ _ h => .pure (is rfl (Nat.le_refl _) ⟨.single h.1, h.2⟩)
    · refine .ite (fun _ => .unexpected _) fun _ => ?_
      exact (properties hd hfresh found none .nil).mono fun _ _ h => is rfl (by omega) h
    · exact typed
    · exact typed
    · exact typed
    · exact typed
    · exact .unexpected _

theorem members : Builds ts (members d) i fun r j => SoundAll ts b isMember r.1 ∧ Stops ts r.2 j :=
  .expect fun hopen => through (.behind hopen nofun) fun k hk => hd .member k hk

theorem classDeclaration : Builds ts (classDeclaration d) i fun r j =>
    Ended ts (b + 2) isStatement i j r := by
  refine .here (classModifiers.bind fun _ _ _ => .expect fun _ => identifier fun hname => ?_)
  refine (parentClass (b := b)).bind fun parent _ hparent => ?_
  refine (typeReferences (b := b) _ rfl rfl).bind fun interfaces _ hinterfaces => ?_
  refine (members hd).bind fun r j hr => ?_
  have hfills : Fills ts (b + 1) NodeKind.classDecl.slots (parent.toList ++ (interfaces ++ r.1)) :=
    .optional hparent (.many hinterfaces (Fills.many (hr.1.mono (Nat.le_succ _)) .nil).last)
  refine .pure ⟨.node (.declares (fun _ => hname.wordy) (.always rfl rfl) rfl) ?_ rfl, rfl, hr.2⟩
  simpa only [List.append_assoc] using hfills

theorem interfaceDeclaration : Builds ts (interfaceDeclaration d) i fun r j =>
    Ended ts (b + 2) isStatement i j r := by
  refine .expect fun _ => identifier fun hname => ?_
  refine (typeReferences (b := b) _ rfl rfl).bind fun parents _ hparents => ?_
  refine (members hd).bind fun r j hr => .pure ⟨?_, rfl, hr.2⟩
  refine .node (.declares (fun _ => hname.wordy) (.always rfl rfl) rfl) ?_ rfl
  exact .many hparents (Fills.many (hr.1.mono (Nat.le_succ _)) .nil).last

theorem traitDeclaration : Builds ts (traitDeclaration d) i fun r j =>
    Ended ts (b + 1) isStatement i j r := by
  refine .expect fun _ => identifier fun hname => (members hd).bind fun r j hr => ?_
  refine .pure ⟨?_, rfl, hr.2⟩
  exact .node (.declares (fun _ => hname.wordy) (.always rfl rfl) rfl) (Fills.many hr.1 .nil).last rfl

-- Control structures.

theorem body : Builds ts (body d) i fun r j => Sound ts (b + 1) isStatement r ∧ Stops ts r.last j := by
  refine .here ((deeper_statement hd).bind fun r j hr => ?_)
  cases r with
  | some statement =>
      have hending := hr.1 statement rfl
      exact .pure ⟨hending.toSound.mono (Nat.le_succ b), hending.stops⟩
  | none => exact .pure ⟨.plain rfl (Fills.many .nil .nil) rfl, hr.2 rfl⟩

-- A condition in parentheses.
theorem condition : Builds ts (Parser.parenthesized d) i fun r _ => Sound ts b isExpression r :=
  (parenthesized hd).mono fun _ _ h => h.toSound

-- Clauses end where the last of them does, or where the structure in front of them does.
omit hd in
theorem clauses {takes : NodeKind → Bool} {keyword : Keyword} {clause : Nat → Parser Draft}
    (h : ∀ first k, Builds ts (clause first) k fun r j => Sound ts b takes r ∧ Stops ts r.last j)
    {head : Draft} (hhead : Stops ts head.last i) : Builds ts (clauses keyword clause) i fun ds j =>
      SoundAll ts b takes ds ∧ Stops ts (lastOf head ds) j := by
  refine .iterate (fun found j => SoundAll ts b takes found ∧ Stops ts (lastOf head found) j)
    ⟨.nil, hhead⟩ fun found k hfound => ?_
  refine .accept (fun _ => (h _ _).bind fun r j hr => .pure ⟨hfound.1.append (.single hr.1), ?_⟩)
    (.pure hfound)
  rw [lastOf, List.getLastD_concat]
  exact hr.2

omit hd in
theorem clause? {takes : NodeKind → Bool} {keyword : Keyword} {clause : Nat → Parser Draft}
    (h : ∀ first k, Builds ts (clause first) k fun r j => Sound ts b takes r ∧ Stops ts r.last j)
    {head : Draft} {ds : List Draft} (hhead : Stops ts (lastOf head ds) i) :
    Builds ts (clause? keyword clause) i fun o j =>
      SoundAll ts b takes o.toList ∧ Stops ts (lastOf head (ds ++ o.toList)) j := by
  refine .accept (fun _ => (h _ _).bind fun r j hr => .pure ⟨.single hr.1, ?_⟩)
    (.pure ⟨.nil, by simpa using hhead⟩)
  rw [lastOf, Option.toList_some, List.getLastD_concat]
  exact hr.2

theorem ifStatement : Builds ts (ifStatement d) i fun r j =>
    Ended ts (b + 3) isStatement i j r := by
  have elseIf (first k : Nat) : Builds ts (elseIfBranch d first) k fun r j =>
      Sound ts (b + 2) (only .elseIfBranch) r ∧ Stops ts r.last j :=
    (condition hd).bind fun _ _ hcondition => (body hd).bind fun _ _ hbody =>
      .pure ⟨.plain rfl (.one (hcondition.mono (Nat.le_succ b)) (.one hbody.1 .nil)) rfl, hbody.2⟩
  have elseBranch (first k : Nat) : Builds ts (elseBranch d first) k fun r j =>
      Sound ts (b + 2) (only .elseBranch) r ∧ Stops ts r.last j :=
    (body hd).bind fun _ _ hbody => .pure ⟨.plain rfl (.one hbody.1 .nil) rfl, hbody.2⟩
  refine .expect fun _ => (condition hd).bind fun c _ hc => (body hd).bind fun chosen _ hchosen => ?_
  refine (clauses elseIf hchosen.2).bind fun elseIfs _ helseIfs => ?_
  refine (clause? elseBranch helseIfs.2).bind fun otherwise j hotherwise => .pure ?_
  refine ⟨.plain rfl ?_ rfl, rfl, hotherwise.2⟩
  exact .one (hc.mono (by omega)) (.one (hchosen.1.mono (Nat.le_succ _))
    (.many helseIfs.1 (Fills.optional hotherwise.1 .nil).last))

theorem whileLoop : Builds ts (whileLoop d) i fun r j => Ended ts (b + 2) isStatement i j r :=
  .expect fun _ => (condition hd).bind fun _ _ hc => (body hd).bind fun _ _ hbody =>
    .pure ⟨.plain rfl (.one (hc.mono (Nat.le_succ b)) (.one hbody.1 .nil)) rfl, rfl, hbody.2⟩

theorem doWhileLoop : Builds ts (doWhileLoop d) i fun r j => Ended ts (b + 2) isStatement i j r :=
  .expect fun _ => (body hd).bind fun _ _ hbody => .expect fun _ => (condition hd).bind fun _ _ hc =>
    .terminator fun hstops =>
      .pure ⟨.plain rfl (.one hbody.1 (.one (hc.mono (Nat.le_succ b)) .nil)) rfl, rfl, hstops⟩

theorem forLoop : Builds ts (forLoop d) i fun r j => Ended ts (b + 2) isStatement i j r := by
  have list (close : Symbol) (k : Nat) : Builds ts (Parser.closedList close (d .expression)) k
      fun r _ => SoundAll ts (b + 1) isExpression r.1 :=
    (closedList fun _ => expressions hd).mono fun _ _ h => h.1.mono (Nat.le_succ b)
  refine .expect fun _ => .expect fun _ => (list _ _).bind fun starts _ hstarts => ?_
  refine (list _ _).bind fun conditions _ hconditions => (list _ _).bind fun steps _ hsteps => ?_
  refine (body hd).bind fun r j hbody => .pure ⟨.plain rfl ?_ rfl, rfl, hbody.2⟩
  exact .many ((hstarts.append hconditions).append hsteps) (.one hbody.1 .nil)

theorem foreachLoop : Builds ts (foreachLoop d) i fun r j => Ended ts (b + 2) isStatement i j r := by
  have value (k : Nat) : Builds ts (foreachValue d) k fun o _ =>
      SoundAll ts (b + 1) isExpression o.toList :=
    .accept (fun _ => .skip fun _ _ => (expressions hd).bind fun _ _ h =>
      .pure (.single (h.mono (Nat.le_succ b)))) (.pure .nil)
  refine .expect fun _ => .expect fun _ => (expressions hd).bind fun subject _ hsubject => ?_
  refine .expect fun _ => .skip fun _ _ => (expressions hd).bind fun target _ htarget => ?_
  refine (value _).bind fun value _ hvalue => .expect fun _ => (body hd).bind fun r j hbody => ?_
  refine .pure ⟨.plain rfl ?_ rfl, rfl, hbody.2⟩
  exact .one (hsubject.mono (Nat.le_succ b)) (.one (htarget.mono (Nat.le_succ b))
    (.optional hvalue (.one hbody.1 .nil)))

theorem switchStatement : Builds ts (switchStatement d) i fun r j =>
    Ended ts (b + 1) isStatement i j r := by
  have cases (k : Nat) : Builds ts (switchCases d) k fun r j =>
      SoundAll ts b isCase r.1 ∧ Stops ts r.2 j := by
    refine .iterate (fun found _ => SoundAll ts b isCase found) .nil fun found m hfound => ?_
    refine .accept (fun hclose => .pure ⟨hfound, rfl, _, hclose, rfl⟩) (Builds.bind (hd .switchCase m trivial) ?_)
    exact fun _ _ hcase => .pure (hfound.append (.single hcase))
  refine .expect fun _ => (condition hd).bind fun subject _ hsubject => .expect fun _ => ?_
  refine (cases _).bind fun r j hr => .pure ⟨.plain rfl ?_ rfl, rfl, hr.2⟩
  exact .one hsubject (Fills.many hr.1 .nil).last

theorem caseStatements : Builds ts (caseStatements d) i fun ds _ => SoundAll ts b isStatement ds := by
  refine .iterate (fun found _ => SoundAll ts b isStatement found) .nil fun found k hfound => .ahead ?_
  split
  · exact .fail _
  · exact .pure hfound
  · exact .pure hfound
  · exact .pure hfound
  · refine (deeper_statement hd).bind fun r _ hr => .pure (hfound.append ?_)
    cases r with
    | none => exact .nil
    | some e => exact .single (hr.1 e rfl).toSound

theorem caseRest {kind : NodeKind} (hcase : isCase kind = true) {first : Nat} {value : List Draft}
    (hplain : kind.isPlain = true)
    (hvalue : ∀ ds, SoundAll ts b isStatement ds → Fills ts b kind.slots (value ++ ds)) :
    Builds ts (caseRest d kind first value) i fun r _ => Sound ts (b + 1) isCase r := by
  have mark : Builds ts caseMark i fun _ _ => True := by
    refine .ahead ?_
    split
    · exact Builds.took.mono fun _ _ _ => trivial
    · exact Builds.took.mono fun _ _ _ => trivial
    · exact .unexpected _
  exact mark.bind fun _ _ _ => (caseStatements hd).bind fun _ _ hds =>
    .pure (.plain hplain (hvalue _ hds) hcase)

theorem switchCase : Builds ts (switchCase d) i fun r _ => Sound ts (b + 1) isCase r := by
  refine .ahead ?_
  split
  · refine .next ((expressions hd).bind fun value _ hvalue => caseRest hd rfl rfl fun ds hds => ?_)
    exact .one hvalue (Fills.many hds .nil).last
  · exact .next (caseRest hd rfl rfl fun ds hds => (Fills.many hds .nil).last)
  · exact .unexpected _

theorem catchClause (first : Nat) : Builds ts (catchClause d first) i fun r j =>
    Sound ts (b + 2) (only .catchClause) r ∧ Stops ts r.last j := by
  have types (k : Nat) : Builds ts caughtTypes k fun ds _ =>
      SoundAll ts (b + 1) (only .typeHint) ds ∧ ds ≠ [] := by
    refine .iterate (fun ds _ => SoundAll ts (b + 1) (only .typeHint) ds) .nil fun ds m hds => ?_
    refine qualifiedName.bind fun name _ hname => ?_
    have hall : SoundAll ts (b + 1) (only .typeHint) (ds ++ [Name.node .typeHint name]) :=
      hds.append (.single (hname.node rfl (.inr rfl) rfl).toSound)
    exact .accept (fun _ => .pure hall) (.pure ⟨hall, by simp⟩)
  have caught (k : Nat) : Builds ts (Parser.accept .variableName) k fun o _ =>
      SoundAll ts (b + 1) (only .variableName) (o.map (Draft.leaf .variableName)).toList := by
    refine Builds.accepted.mono fun o _ ho => ?_
    rcases ho with ⟨hkind, rfl, -⟩ | ⟨rfl, -⟩
    · exact .single (Whole.leaf (.variable_ hkind) rfl rfl).toSound
    · exact .nil
  refine .expect fun _ => (types _).bind fun types _ htypes => (caught _).bind fun o _ ho => ?_
  refine .expect fun _ => (block hd).bind fun r j hr => .pure ⟨.plain rfl ?_ rfl, hr.stops⟩
  have hfills : Fills ts (b + 1) NodeKind.catchClause.slots
      (types ++ ((o.map (Draft.leaf .variableName)).toList ++ [r])) :=
    .some htypes.1 htypes.2 (.optional ho (.one hr.toSound .nil))
  simpa only [List.append_assoc] using hfills

theorem tryStatement : Builds ts (tryStatement d) i fun r j =>
    Ended ts (b + 3) isStatement i j r := by
  have final (first k : Nat) : Builds ts (finallyClause d first) k fun r j =>
      Sound ts (b + 2) (only .finallyClause) r ∧ Stops ts r.last j :=
    (block hd).bind fun _ _ hr => .pure ⟨.plain rfl (.one hr.toSound .nil) rfl, hr.stops⟩
  refine .expect fun _ => (block hd).bind fun guarded _ hguarded => ?_
  refine (clauses (fun first _ => catchClause hd first) hguarded.stops).bind fun catches _ hcatches => ?_
  refine (clause? final hcatches.2).bind fun final j hfinal => ?_
  refine .ite (fun _ => .unexpected _) fun hmore => .pure ⟨.node (.guards ?_ rfl) ?_ rfl, rfl, hfinal.2⟩
  · have hne : catches ++ final.toList ≠ [] := fun h => hmore (by rw [h]; rfl)
    exact Nat.succ_lt_succ (List.length_pos_iff.2 hne)
  · exact .one (hguarded.toSound.mono (Nat.le_succ _))
      (.many hcatches.1 (Fills.optional hfinal.1 .nil).last)

-- Statements of one line.

theorem returnStatement : Builds ts (returnStatement d) i fun r j =>
    Ended ts (b + 1) isStatement i j r := by
  have value (k : Nat) : Builds ts (returnValue d) k fun o _ => SoundAll ts b isExpression o.toList := by
    refine .ahead ?_
    split
    · exact .pure .nil
    · exact .pure .nil
    · exact (expressions hd).bind fun _ _ h => .pure (.single h)
  refine .expect fun _ => (value _).bind fun _ _ ho => .terminator fun hstops => .pure ⟨?_, rfl, hstops⟩
  exact .plain rfl (Fills.optional ho .nil).last rfl

theorem throwStatement : Builds ts (throwStatement d) i fun r j =>
    Ended ts (b + 1) isStatement i j r :=
  .expect fun _ => (expressions hd).bind fun _ _ h =>
    .terminator fun hstops => .pure ⟨.plain rfl (.one h .nil) rfl, rfl, hstops⟩

theorem echoStatement : Builds ts (echoStatement d) i fun r j =>
    Ended ts (b + 1) isStatement i j r :=
  .expect fun _ => (commaList fun _ => expressions hd).bind fun _ _ h =>
    .terminator fun hstops => .pure ⟨.plain rfl (Fills.some h.1 h.2 .nil).last rfl, rfl, hstops⟩

omit hd in
theorem jump {kind : NodeKind} (hkind : isStatement kind = true) (hplain : kind.isPlain = true)
    (hslots : kind.slots = [.optional (only (.literal .integer))]) :
    Builds ts (jump kind) i fun r j => Ended ts (b + 2) isStatement i j r := by
  refine .next (Builds.accepted.bind fun o _ ho => .terminator fun hstops => ?_)
  refine .pure ⟨.plain hplain ?_ hkind, rfl, hstops⟩
  rw [hslots]
  refine (Fills.optional ?_ .nil).last
  rcases ho with ⟨hinteger, rfl, -⟩ | ⟨rfl, -⟩
  · exact .single (Whole.leaf (.literal hinteger rfl) rfl rfl).toSound
  · exact .nil

omit hd in
theorem globalStatement : Builds ts globalStatement i fun r j =>
    Ended ts (b + 2) isStatement i j r := by
  have names (k : Nat) : Builds ts Parser.variable_ k fun r _ =>
      Sound ts (b + 1) (only .variableName) r := (variable_ rfl).mono fun _ _ h => h.toSound
  exact .expect fun _ => (commaList names).bind fun _ _ h =>
    .terminator fun hstops => .pure ⟨.plain rfl (Fills.some h.1 h.2 .nil).last rfl, rfl, hstops⟩

theorem staticVariables : Builds ts (staticVariables d) i fun r j =>
    Ended ts (b + 3) isStatement i j r := by
  have variable_ (k : Nat) : Builds ts Parser.variable_ k fun r _ =>
      Sound ts (b + 1) (only .variableName) r := (variable_ rfl).mono fun _ _ h => h.toSound
  have item (k : Nat) : Builds ts (staticVariable d) k fun r _ => Sound ts (b + 2) isStatic r := by
    refine (variable_ k).bind fun target _ htarget => ?_
    refine .accept (fun _ => (expressions hd).bind fun value _ hvalue => .pure ?_) ?_
    · exact .plain rfl (.one (htarget.of_only rfl) (.one (hvalue.mono (Nat.le_succ b)) .nil)) rfl
    · exact .pure ((htarget.of_only rfl).mono (Nat.le_succ _))
  exact .expect fun _ => (commaList item).bind fun _ _ h =>
    .terminator fun hstops => .pure ⟨.plain rfl (Fills.some h.1 h.2 .nil).last rfl, rfl, hstops⟩

theorem expressionStatement : Builds ts (expressionStatement d) i fun r j =>
    Ending ts (b + 1) i j r :=
  (deeper_expression hd).bind fun _ _ h =>
    .terminator fun hstops => .pure ⟨.plain rfl (.one h.toSound .nil) rfl, h.opened, rfl, hstops.kind⟩

theorem fullStatement (kind : TokenKind) : Builds ts (fullStatement d kind) i fun r j =>
    Ending ts (b + 3) i j r := by
  have whole {p : Parser Draft} {n : Nat} (hn : n ≤ b + 3)
      (h : Builds ts p i fun r j => Ended ts n isStatement i j r) :
      Builds ts p i fun r j => Ending ts (b + 3) i j r :=
    h.mono fun _ _ h => ⟨h.toSound.mono hn, h.first ▸ .refl, h.stops.next, h.stops.kind⟩
  have value : Builds ts (Parser.expressionStatement d) i fun r j => Ending ts (b + 3) i j r :=
    (expressionStatement hd).mono fun _ _ h => ⟨h.toSound.mono (by omega), h.opened, h.last, h.stop⟩
  have is {p : Parser Draft} {one : NodeKind} {n : Nat} (hone : isStatement one = true)
      (h : Builds ts p i fun r j => Ended ts n (only one) i j r) :
      Builds ts p i fun r j => Ended ts n isStatement i j r :=
    h.mono fun _ _ h => ⟨h.toSound.of_only hone, h.first, h.stops⟩
  unfold Parser.fullStatement
  split
  · exact whole (by omega) (is rfl (block hd))
  · exact whole (Nat.le_refl _) (ifStatement hd)
  · exact whole (by omega) (whileLoop hd)
  · exact whole (by omega) (doWhileLoop hd)
  · exact whole (by omega) (switchStatement hd)
  · exact whole (by omega) (forLoop hd)
  · exact whole (by omega) (foreachLoop hd)
  · exact whole (Nat.le_refl _) (tryStatement hd)
  · exact whole (by omega) (returnStatement hd)
  · exact whole (by omega) (throwStatement hd)
  · exact whole (by omega) (echoStatement hd)
  · exact whole (n := b + 2) (by omega) (jump rfl rfl rfl)
  · exact whole (n := b + 2) (by omega) (jump rfl rfl rfl)
  · exact whole (n := b + 2) (by omega) globalStatement
  · exact .ahead (.ite (fun _ => whole (Nat.le_refl _) (staticVariables hd)) fun _ => value)
  · exact whole (by omega) (classDeclaration hd)
  · exact whole (by omega) (classDeclaration hd)
  · exact whole (by omega) (classDeclaration hd)
  · exact whole (by omega) (interfaceDeclaration hd)
  · exact whole (by omega) (traitDeclaration hd)
  · have named : Builds ts atFunction i fun _ j => j = i :=
      .ahead (.ite (fun _ => .pure rfl) fun _ => .ahead (.ahead (.pure rfl)))
    refine named.bind fun found j hj => ?_
    subst hj
    exact .ite (fun _ => whole (Nat.le_refl _) (is rfl (function hd))) fun _ => value
  · exact value

theorem statement : Builds ts (statement d) i fun r j =>
    (∀ e, r = some e → Ending ts (b + 3) i j e) ∧ (r = none → Stops ts i j) := by
  have empty {kind : TokenKind} (hkind : kindAt ts i = some kind) (hstop : kind.isStop = true) :
      Builds ts (do
        let _ ← Parser.next
        return none) i fun (r : Option Draft) j =>
          (∀ e, r = some e → Ending ts (b + 3) i j e) ∧ (r = none → Stops ts i j) :=
    .next (.pure ⟨nofun, fun _ => ⟨rfl, kind, hkind, hstop⟩⟩)
  refine .ahead ?_
  split
  · exact .fail _
  · exact empty ‹_› rfl
  · exact empty ‹_› rfl
  · refine (fullStatement hd _).bind fun r j hr => .pure ⟨fun e he => ?_, nofun⟩
    obtain rfl := Option.some.inj he
    exact hr

-- Files.

theorem topStatement (hfresh : Fresh ts i) : Builds ts (topStatement d) i fun ds j =>
    SoundAll ts (b + 2) isItem ds ∧ Fresh ts j := by
  have is {kind : NodeKind} (hkind : isItem kind = true) {n j : Nat} (hn : n ≤ b + 2) {ds : List Draft}
      (h : SoundAll ts n (only kind) ds ∧ Fresh ts j) : SoundAll ts (b + 2) isItem ds ∧ Fresh ts j :=
    ⟨fun e he => ((h.1 e he).mono hn).of_only hkind, h.2⟩
  refine .ahead ?_
  split
  · exact (useDeclarations (b := b)).mono fun _ _ h => is rfl (Nat.le_refl _) h
  · exact .next ((constants hd hfresh).mono fun _ _ h => is rfl (Nat.le_succ _) h)
  · refine (deeper_statement hd).bind fun r j hr => .pure ?_
    cases r with
    | none => exact ⟨.nil, (hr.2 rfl).fresh⟩
    | some e =>
        have hending := hr.1 e rfl
        have hsound := hending.toSound.mono (Nat.le_add_right b 2)
        exact ⟨.single ⟨hsound.formed, by simp [isItem, hsound.kind]⟩, hending.stops.fresh⟩

theorem namespaceDeclaration : Builds ts (namespaceDeclaration d) i fun r j =>
    Sound ts (b + 3) (only .namespaceDecl) r ∧ Fresh ts j := by
  have image (k : Nat) : Builds ts namespaceImage k fun image _ => image.Wordy ts false :=
    .ahead (.ite (fun _ => .pure rfl) fun _ => qualifiedName.bind fun _ _ h => .pure h.bare)
  have openStatements (k : Nat) (hk : Fresh ts k) : Builds ts (openStatements d) k fun ds j =>
      SoundAll ts (b + 2) isItem ds ∧ Fresh ts j := by
    refine .iterate (fun found m => SoundAll ts (b + 2) isItem found ∧ Fresh ts m) ⟨.nil, hk⟩ ?_
    rintro found m ⟨hfound, hm⟩
    refine .ahead ?_
    split
    · exact .pure ⟨hfound, hm⟩
    · exact .pure ⟨hfound, hm⟩
    · exact (topStatement hd hm).bind fun _ _ hmore => .pure ⟨hfound.append hmore.1, hmore.2⟩
  refine .expect fun _ => (image _).bind fun image _ himage =>
    .accept (fun hopen => ?_) (.terminator fun hstops => ?_)
  · refine (through (.behind hopen nofun) fun _ => topStatement hd).bind fun r _ hr => ?_
    exact .pure ⟨.node (.named himage rfl) (Fills.many hr.1 .nil).last rfl, hr.2.fresh⟩
  · refine (openStatements _ hstops.fresh).bind fun ds _ hds => .pure ⟨?_, hds.2⟩
    exact .node (.named himage rfl) (Fills.many hds.1 .nil).last rfl

theorem file (hfresh : Fresh ts i) : Builds ts (file d) i fun ds _ => SoundAll ts (b + 3) isTop ds := by
  refine .iterate (fun found k => SoundAll ts (b + 3) isTop found ∧ Fresh ts k) ⟨.nil, hfresh⟩ ?_
  rintro found k ⟨hfound, hk⟩
  refine .ahead ?_
  split
  · exact .pure hfound
  · refine .ahead (.ite (fun _ => ?_) fun _ => ?_)
    · refine (namespaceDeclaration hd).bind fun r _ hr => .pure ⟨hfound.append (.single ?_), hr.2⟩
      exact hr.1.of_only rfl
    · refine (topStatement hd hk).bind fun ds _ hds => .pure ⟨hfound.append fun e he => ?_, hds.2⟩
      have hitem := (hds.1 e he).mono (Nat.le_succ _)
      exact ⟨hitem.formed, by simp [isTop, hitem.kind]⟩

end Goals

end Parser.Forming

theorem Goal.production_forming {d : Deeper} (hd : d.Forming ts b) :
    Deeper.Forming ts (b + 7) fun goal => goal.production d := by
  intro goal i hready
  cases goal with
  | statement =>
      refine (Parser.Forming.statement hd).mono fun r j hr => ⟨fun e he => ?_, hr.2⟩
      have hending := hr.1 e he
      exact ⟨hending.toSound.mono (by omega), hending.opened, hending.last, hending.stop⟩
  | member => exact (Parser.Forming.member hd hready).mono fun _ _ h => ⟨h.1.mono (by omega), h.2⟩
  | switchCase => exact (Parser.Forming.switchCase hd).mono fun _ _ h => h.mono (by omega)
  | expression => exact Parser.Forming.expression hd
  | assigned => exact (Parser.Forming.assignment hd).mono fun _ _ h => h.mono (by omega)
  | branches question condition =>
      obtain ⟨hi, hquestion, hcondition⟩ := hready
      exact Parser.Forming.branches hd hi hquestion hcondition
  | operands minimum =>
      exact (Parser.Forming.operands hd minimum).mono fun _ _ h => h.mono (by omega)
  | unary => exact (Parser.Forming.unary hd).mono fun _ _ h => h.mono (by omega)

-- By induction on the levels: each of them allows seven more turns.
theorem parse_forming (ts : List Terminal) (levels : Nat) :
    (parse levels).Forming ts (7 * levels) := by
  induction levels with
  | zero => exact fun _ _ _ => .tooDeep
  | succ levels ih => exact Goal.production_forming ih

-- The nodes of a file keep to the schema, and its nesting bounds their turns.
theorem parseFile_sound {levels : Nat} {ds : List Draft} (h : parseFile levels ts = .ok ds) :
    SoundAll ts (7 * levels + 3) isTop ds := by
  unfold parseFile at h
  split at h
  · rename_i drafts t hfile
    obtain ⟨_, -, hall⟩ := Parser.Forming.file (parse_forming ts levels) (.start ts) _ _ hfile
    exact Except.ok.inj h ▸ hall
  · cases h

end Census.Grammar
