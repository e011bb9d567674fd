import Census.Proofs.Grammar.Forming

namespace Census.Grammar

open NodeKind (isExpression only)

variable {ts : List Terminal} {b i j k : Nat} {base r : Draft}

-- What goes on from `base` begins where `base` does.
theorem Onward.within (h : Onward ts b base j r) (hopened : Opened ts i base.first) :
    Within ts b isExpression i j r := ⟨h.toSound, h.first ▸ hopened, h.closed⟩

-- One round of a loop that goes on from `base` or ends with it.
def GoesOn (ts : List Terminal) (b : Nat) (base : Draft) (i : Nat) :
    Parser.Round Draft Draft → Nat → Prop
  | .again r, j => Onward ts b base j r
  | .done r, j => r = base ∧ j = i

namespace Parser.Forming

variable {d : Deeper} (hd : d.Forming ts b)
include hd

theorem parenthesized : Builds ts (parenthesized d) i fun r j => Within ts b isExpression i j r := by
  refine .expect fun hopen => (deeper_expression hd).bind fun inner _ hinner => ?_
  refine .expect fun hclose => .pure ⟨hinner.toSound, hinner.opened.paren hopen, ?_⟩
  exact hinner.closed.closer (.inl hclose)

theorem arguments : Builds ts (arguments d) i fun r j =>
    Whole ts (b + 1) (only .arguments) i j r := by
  have argument (k : Nat) : Builds ts (argument d) k fun r _ => Sound ts b isExpression r :=
    .skip fun _ _ => expressions hd
  refine .expect fun _ => (closedList argument).bind fun _ _ hr => ?_
  exact .pure ⟨.plain rfl (Fills.many hr.1 .nil).last rfl, rfl, hr.2⟩

theorem arrayElement : Builds ts (arrayElement d) i fun r _ =>
    Sound ts (b + 1) (only .arrayElement) r := by
  refine .here (.skip fun _ _ => .skip fun _ _ => (expressions hd).bind fun head _ hhead => ?_)
  refine .accept (fun _ => .skip fun _ _ => ?_) (.pure (.plain rfl (.one hhead (.without .nil)) rfl))
  exact (expressions hd).bind fun value _ hvalue =>
    .pure (.plain rfl (.one hhead (.given hvalue .nil)) rfl)

theorem arrayRest (first : Nat) (close : Symbol) : Builds ts (arrayRest d first close) i fun r j =>
    Whole ts (b + 2) isExpression first j r :=
  (closedList fun _ => arrayElement hd).bind fun _ _ hr =>
    .pure ⟨.plain rfl (Fills.many hr.1 .nil).last rfl, rfl, hr.2⟩

theorem allocation : Builds ts (allocation d) i fun r j =>
    Whole ts (b + 2) isExpression i j r := by
  refine .expect fun _ => (classReference (b := b)).bind fun type _ htype => ?_
  refine .ahead (.ite (fun _ => (arguments hd).bind fun args _ hargs => ?_) fun _ => ?_)
  · exact .pure ⟨.plain rfl (.one htype.toSound (.given hargs.toSound .nil)) rfl, rfl, hargs.last⟩
  · exact .pure ⟨.plain rfl (.one htype.toSound (.without .nil)) rfl, rfl, htype.last⟩

theorem primary : Builds ts (primary d) i fun r j => Within ts (b + 3) isExpression i j r := by
  have word (h : NameAt ts i) : Within ts (b + 3) isExpression i (i + 1) (Draft.leaf .identifier i) :=
    (Whole.leaf (.word h) rfl rfl).within
  have name : Builds ts (do return (← Parser.qualifiedName).node .identifier) i fun r j =>
      Within ts (b + 3) isExpression i j r :=
    qualifiedName.bind fun _ _ hname => .pure (hname.node rfl (.inl rfl) rfl).within
  have array {k j : Nat} {r : Draft} (h : Whole ts (b + 2) isExpression k j r) :
      Within ts (b + 3) isExpression k j r := (h.mono (Nat.le_succ _)).within
  refine .ahead ?_
  split
  · exact .fail _
  · rename_i kind hkind
    split
    · exact .next (.pure (Whole.leaf (.literal hkind ‹_›) rfl rfl).within)
    split
    · exact .next (.pure (Whole.leaf (.variable_ hkind) rfl rfl).within)
    · exact (parenthesized hd).mono fun _ _ h => h.mono (by omega)
    · exact .next ((arrayRest hd i _).mono fun _ _ h => array h)
    · refine .ahead (.ite (fun _ => .next (.next ?_)) fun _ => .unexpected _)
      exact (arrayRest hd i _).mono fun _ _ h => array h
    · exact (allocation hd).mono fun _ _ h => array h
    · exact (closure hd).mono fun _ _ h => h.within
    · exact .ahead (.ite (fun _ => (closure hd).mono fun _ _ h => h.within)
        fun _ => .next (.pure (word ⟨_, hkind, rfl⟩)))
    · exact name
    · exact name
    · exact name
    · exact .unexpected _

theorem memberName : Builds ts (memberName d) i fun r j =>
    Sound ts (b + 1) isExpression r ∧ Closed ts r.last j := by
  refine .ahead ?_
  split
  · exact .next (.pure ⟨(Whole.leaf (.variable_ ‹_›) rfl rfl).toSound, .succ⟩)
  · refine .next ((deeper_expression hd).bind fun inner _ hinner => .expect fun hclose => ?_)
    exact .pure ⟨hinner.toSound.mono (Nat.le_succ b), hinner.closed.closer (.inr hclose)⟩
  · refine anyName.bind fun name _ hname => ?_
    obtain ⟨rfl, rfl, hname⟩ := hname
    exact .pure ⟨(Whole.leaf (.word hname) rfl rfl).toSound, .succ⟩

-- Loops that go on from what was read so far.

theorem access {kind : NodeKind} (hkind : kind = .memberAccess ∨ kind = .staticAccess)
    (hbase : Sound ts (b + 3) isExpression base) :
    Builds ts (access d kind base) i fun r j => Onward ts (b + 3) base j r := by
  refine .next ((memberName hd).bind fun member _ hmember => .pure ?_)
  have hfills : Fills ts (b + 2) [.one isExpression] [member] :=
    .one (hmember.1.mono (Nat.le_succ _)) .nil
  rcases hkind with rfl | rfl
  · exact ⟨.wrap rfl rfl rfl hbase hfills rfl, rfl, hmember.2⟩
  · exact ⟨.wrap rfl rfl rfl hbase hfills rfl, rfl, hmember.2⟩

theorem indexed (hbase : Sound ts (b + 3) isExpression base) :
    Builds ts (indexed d base) i fun r j => Onward ts (b + 3) base j r := by
  refine .next (.accept (fun _ => .pure ?_) ((expressions hd).bind fun key _ hkey => ?_))
  · exact ⟨.wrap rfl rfl rfl hbase (.without .nil) rfl, rfl, .succ⟩
  · refine .expect fun _ => .pure ⟨.wrap rfl rfl rfl hbase ?_ rfl, rfl, .succ⟩
    exact .given (hkey.mono (by omega)) .nil

theorem call (hbase : Sound ts (b + 3) isExpression base) :
    Builds ts (call d base) i fun r j => Onward ts (b + 3) base j r := by
  refine (arguments hd).bind fun args j hargs => .pure ⟨.wrap rfl rfl rfl hbase ?_ rfl, rfl, ?_⟩
  · exact .one (hargs.toSound.mono (Nat.le_succ _)) .nil
  · exact hargs.within.closed

omit hd in
theorem loop {step : Draft → Parser (Round Draft Draft)}
    (h : ∀ base k, Sound ts b isExpression base → Builds ts (step base) k (GoesOn ts b base k))
    (hbase : Within ts b isExpression i k base) :
    Builds ts (iterate step base) k fun r j => Within ts b isExpression i j r := by
  refine .iterate (fun r j => Within ts b isExpression i j r) hbase fun r j hr => ?_
  refine (h r j hr.toSound).mono fun round m hround => ?_
  cases round with
  | again next => exact hround.within hr.opened
  | done next =>
      obtain ⟨rfl, rfl⟩ := hround
      exact hr

theorem postfixRound (hbase : Sound ts (b + 3) isExpression base) :
    Builds ts (postfixRound d base) i (GoesOn ts (b + 3) base i) := by
  have operator : Builds ts (do
      let operator ← Parser.next
      return .again ⟨{ kind := .postfixOperation, first := base.first, last := operator
                       image := .tokens operator operator }, [base]⟩) i (GoesOn ts (b + 3) base i) :=
    .next (.pure ⟨.wrap rfl rfl rfl hbase .nil rfl, rfl, .succ⟩)
  refine .ahead ?_
  split
  · exact (call hd hbase).bind fun _ _ h => .pure h
  · exact (access hd (.inl rfl) hbase).bind fun _ _ h => .pure h
  · exact (access hd (.inr rfl) hbase).bind fun _ _ h => .pure h
  · exact (indexed hd hbase).bind fun _ _ h => .pure h
  · exact operator
  · exact operator
  · exact .pure ⟨rfl, rfl⟩

theorem postfixed : Builds ts (postfixed d) i fun r j => Within ts (b + 3) isExpression i j r :=
  (primary hd).bind fun _ _ hfirst => loop (fun _ _ => postfixRound hd) hfirst

theorem power : Builds ts (power d) i fun r j => Within ts (b + 3) isExpression i j r := by
  refine (postfixed hd).bind fun base k hbase => .accept (fun _ => ?_) (.pure hbase)
  refine Builds.bind (hd .unary _ trivial) fun right j hright => .pure ?_
  have hsound := hright.toSound.mono (Nat.le_add_right b 2)
  exact ⟨.wrap rfl rfl rfl hbase.toSound (.one hsound .nil) rfl, hbase.opened, hright.closed⟩

omit hd in
theorem prefixed {kind : NodeKind} (hplain : kind.isPlain = true)
    (hslots : kind.slots = [.one isExpression]) (hkind : isExpression kind = true)
    {image : Nat → Image} {operand : Parser Draft}
    (h : ∀ k, Builds ts operand k fun r j => Within ts b isExpression k j r) :
    Builds ts (prefixed kind image operand) i fun r j => Within ts (b + 3) isExpression i j r := by
  refine .next ((h _).bind fun inner j hinner => .pure ⟨.plain hplain ?_ hkind, .refl, hinner.closed⟩)
  rw [hslots]
  exact .one (hinner.toSound.mono (Nat.le_add_right b 2)) .nil

theorem cast : Builds ts (cast d) i fun r j => Within ts (b + 3) isExpression i j r := by
  refine .next (.next (.next (Builds.bind (hd .unary _ trivial) fun inner j hinner => .pure ?_)))
  have hsound := hinner.toSound.mono (Nat.le_add_right b 2)
  exact ⟨.plain rfl (.one hsound .nil) rfl, .refl, hinner.closed⟩

theorem unary : Builds ts (unary d) i fun r j => Within ts (b + 3) isExpression i j r := by
  refine .ahead ?_
  split
  · exact prefixed rfl rfl rfl fun k => hd (.operands _) k trivial
  iterate 6 exact prefixed rfl rfl rfl fun k => hd .unary k trivial
  iterate 4 exact prefixed rfl rfl rfl fun k => hd .assigned k trivial
  · exact prefixed rfl rfl rfl fun k => hd .assigned k trivial
  · exact prefixed rfl rfl rfl fun k => hd .unary k trivial
  · have atCast {f : Bool → Parser Draft} {Q : Draft → Nat → Prop}
        (hf : ∀ found, Builds ts (f found) i Q) : Builds ts (Parser.atCast >>= f) i Q :=
      fun r t h => hf _ r t h
    exact atCast fun _ => .ite (fun _ => cast hd) fun _ => power hd
  · exact power hd

theorem operandRound (minimum : Nat) (hbase : Sound ts (b + 3) isExpression base) :
    Builds ts (operandRound d minimum base) i (GoesOn ts (b + 3) base i) := by
  refine .ahead ?_
  split
  · exact .pure ⟨rfl, rfl⟩
  · refine .ite (fun _ => .pure ⟨rfl, rfl⟩) fun _ => .next (.ite (fun _ => ?_) fun _ => ?_)
    · refine (classReference (b := b)).bind fun right j hright => .pure ⟨?_, rfl, hright.within.closed⟩
      exact .wrap rfl rfl rfl hbase (.one (hright.toSound.mono (Nat.le_succ _)) .nil) rfl
    · refine Builds.bind (hd (.operands _) _ trivial) fun right j hright => .pure ⟨?_, rfl, hright.closed⟩
      exact .wrap rfl rfl rfl hbase (.one (hright.toSound.mono (Nat.le_add_right b 2)) .nil) rfl

theorem operands (minimum : Nat) : Builds ts (operands d minimum) i fun r j =>
    Within ts (b + 3) isExpression i j r :=
  (unary hd).bind fun _ _ hfirst => loop (fun _ _ => operandRound hd minimum) hfirst

theorem conditional : Builds ts (conditional d) i fun r j =>
    Within ts (b + 4) isExpression i j r := by
  refine (operands hd 0).bind fun condition k hcondition => .accept (fun hquestion => ?_) ?_
  · refine Builds.mono (hd (.branches k condition) (k + 1) ⟨rfl, hquestion, hcondition.toSound⟩) ?_
    exact fun r j hr => hr.within hcondition.opened
  · exact .pure (hcondition.mono (Nat.le_succ _))

theorem assignment : Builds ts (assignment d) i fun r j =>
    Within ts (b + 5) isExpression i j r := by
  have mark (kind : TokenKind) (k : Nat) : Builds ts (referenceMark kind) k fun _ _ => True :=
    .ite (fun _ => Builds.accepted.mono fun _ _ _ => trivial) fun _ => .pure trivial
  refine (conditional hd).bind fun left k hleft => .ahead ?_
  split
  · refine .ite (fun _ => .next ((mark _ _).bind fun _ _ _ => ?_)) fun _ => ?_
    · refine Builds.bind (hd .assigned _ trivial) fun right j hright => .pure ?_
      have hfills : Fills ts (b + 4) NodeKind.assignment.slots [left, right] :=
        .one hleft.toSound (.one (hright.toSound.mono (Nat.le_add_right b 4)) .nil)
      exact ⟨.plain rfl hfills rfl, hleft.opened, hright.closed⟩
    · exact .pure (hleft.mono (Nat.le_succ _))
  · exact .pure (hleft.mono (Nat.le_succ _))

-- The node that `branches` puts around the condition, which was read one level further out.
theorem branches {question : Nat} {condition : Draft} (hi : i = question + 1)
    (hquestion : kindAt ts question = some (.symbol .question))
    (hcondition : Sound ts (b + 10) isExpression condition) :
    Builds ts (branches d question condition) i fun r j => Onward ts (b + 11) condition j r := by
  subst hi
  refine .accept (fun hcolon => (assignment hd).bind fun otherwise j hotherwise => ?_) ?_
  · have hfills : Fills ts (b + 10) NodeKind.conditional.slots [condition, otherwise] :=
      .one hcondition (.without (.one (hotherwise.toSound.mono (by omega)) .nil))
    refine .pure ⟨.node (.chooses ⟨question, hquestion, .inr ⟨rfl, hcolon, rfl⟩⟩ rfl) hfills rfl, rfl, ?_⟩
    exact hotherwise.closed
  · refine (assignment hd).bind fun chosen _ hchosen => .expect fun _ => ?_
    refine (assignment hd).bind fun otherwise j hotherwise => ?_
    have hfills : Fills ts (b + 10) NodeKind.conditional.slots [condition, chosen, otherwise] :=
      .one hcondition (.given (hchosen.toSound.mono (by omega))
        (.one (hotherwise.toSound.mono (by omega)) .nil))
    refine .pure ⟨.node (.chooses ⟨question, hquestion, .inl ⟨rfl, rfl⟩⟩ rfl) hfills rfl, rfl, ?_⟩
    exact hotherwise.closed

omit hd in
theorem joined (operator : Keyword) {operand : Parser Draft}
    (h : ∀ k, Builds ts operand k fun r j => Within ts b isExpression k j r) :
    Builds ts (joined operator operand) i fun r j => Within ts (b + 1) isExpression i j r := by
  refine (h i).bind fun first k hfirst => loop (fun base m hbase => ?_) (hfirst.mono (Nat.le_succ b))
  refine .accept (fun _ => (h _).bind fun right j hright => .pure ⟨?_, rfl, hright.closed⟩)
    (.pure ⟨rfl, rfl⟩)
  exact .wrap rfl rfl rfl hbase (.one hright.toSound .nil) rfl

theorem expression : Builds ts (expression d) i fun r j => Within ts (b + 7) isExpression i j r :=
  joined .kwOr fun _ => joined .kwAnd fun _ => assignment hd

end Parser.Forming

end Census.Grammar
