import Census.Proofs.Grammar.Naming
import Census.Proofs.Grammar.Values

namespace Census.Grammar.Parser.Shows

variable {β : Type} {s : Input} {d : Deeper}

-- Names take no value.

theorem anyName : Gives anyName s fun _ taken => taken = [] := by
  refine .ahead ?_
  cases hkind : (s.rest[0]?).map (·.kind) with
  | none => exact .unexpected _
  | some kind =>
      refine .ite (fun hname => (Gives.next hkind).mono fun _ _ htaken => ?_) fun _ => .unexpected _
      rw [htaken, TokenKind.isValue_of_isName hname]
      rfl

theorem qualifiedName : Gives qualifiedName s fun _ taken => taken = [] := by
  rw [qualifiedName_eq]
  refine .here (.skip rfl fun _ t => .plain anyName fun bare u => ?_)
  refine Gives.iterate (fun _ taken => taken = []) rfl ?_
  rintro last v _ rfl
  refine .ahead (.ahead (.ite (fun hmore => ?_) fun _ => .pure rfl))
  obtain ⟨hfirst, hsecond⟩ := Bool.and_eq_true_iff.1 hmore
  obtain ⟨kind, hkind, hname⟩ := (Option.any_eq_true _ _).1 hsecond
  refine .pass (of_decide_eq_true hfirst) rfl fun _ w hw => ?_
  refine .pass ?_ (TokenKind.isValue_of_isName hname) fun _ _ _ => .pure rfl
  rw [hw, List.getElem?_tail]
  exact hkind

theorem values_name (kind : NodeKind) (h : kind.isValue = false) (name : Name) :
    (name.node kind).values = [] := by
  simp [Name.node, h]

theorem leaf {kind : NodeKind} {token : TokenKind}
    (htoken : (s.rest[0]?).map (·.kind) = some token) (h : kind.isValue = token.isValue) :
    Shows (do return Draft.leaf kind (← Parser.next)) s := by
  refine (Gives.next htoken).bind fun i t taken htaken => .pure ?_
  rw [htaken, Draft.values_leaf, h, List.append_nil]

theorem variable_ : Shows variable_ s := by
  refine (Gives.expect _ _).bind fun i t taken htaken => .pure ?_
  rw [htaken, Draft.values_leaf, List.append_nil]
  rfl

theorem classReference : Shows classReference s := by
  refine .ahead ?_
  split
  · exact leaf ‹_› rfl
  · exact leaf ‹_› rfl
  · exact .plain qualifiedName fun name t => .pure (values_name _ rfl name)

theorem isValue_of_modifier? {kind : TokenKind} {m : Modifier}
    (h : Parser.modifiers.modifier? kind = some m) : kind.isValue = false := by
  unfold Parser.modifiers.modifier? at h
  split at h <;> first | rfl | cases h

theorem modifiers : Gives modifiers s fun _ taken => taken = [] := by
  refine Gives.iterate (fun _ taken => taken = []) rfl ?_
  rintro found t _ rfl
  refine .ahead ?_
  split
  · exact .pure rfl
  · rename_i m hm
    obtain ⟨kind, hkind, hmodifier⟩ := Option.bind_eq_some_iff.1 hm
    refine .ahead (.ite (fun _ => .pure rfl) fun _ => ?_)
    exact .pass hkind (isValue_of_modifier? hmodifier) fun _ _ _ => .pure rfl

theorem typeName : Gives typeName s fun _ taken => taken = [] := by
  have word {kind : TokenKind} (hkind : (s.rest[0]?).map (·.kind) = some kind)
      (h : kind.isValue = false) : Gives (do return Name.word (← next)) s fun _ taken => taken = [] :=
    .pass hkind h fun _ _ _ => .pure rfl
  refine .ahead ?_
  split
  · exact word ‹_› rfl
  · exact word ‹_› rfl
  · exact word ‹_› rfl
  · exact word ‹_› rfl
  · exact qualifiedName

-- Types show no values.
theorem typeHint : Gives typeHint s fun d taken => d.values = [] ∧ taken = [] := by
  have names (text : List Nat) (t : Input) : Gives (typeNames text) t fun _ taken => taken = [] := by
    refine Gives.iterate (fun _ taken => taken = []) rfl ?_
    rintro _ u _ rfl
    refine .plain typeName fun name v => .skip rfl fun o w => ?_
    cases o <;> exact .pure rfl
  refine .here (.skip rfl fun _ t => .plain (names _ t) fun r u => .pure ⟨by simp [NodeKind.isValue], rfl⟩)

-- Functions and their parts.

theorem block (hd : d.Showing) : Shows (block d) s := by
  refine .take rfl fun first t => ?_
  have items : ShowsUpTo (Parser.through .rightBrace (Option.toList <$> d .statement)) t :=
    through fun u => .map (hd .statement u)
  exact items.bind fun r u => .pure (by simp [NodeKind.isValue])

theorem initial (hd : d.Showing) : ShowsAny (initial d) s := by
  refine .skip rfl fun o t => ?_
  cases o with
  | some _ => exact Shows.bind (hd .expression t) fun value u => .pure (by simp)
  | none => exact .pure rfl

theorem parameterHint : Gives parameterHint s fun o taken =>
    Draft.valuesAll o.toList = [] ∧ taken = [] := by
  refine .ahead ?_
  split
  · exact .pure ⟨rfl, rfl⟩
  · exact .pure ⟨rfl, rfl⟩
  · exact .pure ⟨rfl, rfl⟩
  · refine .bind typeHint fun hint t taken hhint => .pure ⟨?_, ?_⟩
    · simp [hhint.1]
    · simp [hhint.2]

theorem parameter (hd : d.Showing) : Shows (parameter d) s := by
  refine .here (.plain modifiers fun _ t => .bind parameterHint ?_)
  rintro hint u _ ⟨hhint, rfl⟩
  refine .skip rfl fun _ v => .skip rfl fun _ w => (Gives.expect _ _).bind ?_
  rintro name x _ rfl
  refine (initial hd).bind fun default y => .pure ?_
  simp [NodeKind.isValue, TokenKind.isValue, hhint]

theorem parameters (hd : d.Showing) : ShowsAll (parameters d) s :=
  .take rfl fun _ t => (closedList fun u => parameter hd).bind fun r u => .pure (by simp)

theorem returnType : Gives returnType s fun o taken =>
    Draft.valuesAll o.toList = [] ∧ taken = [] := by
  refine .skip rfl fun o t => ?_
  cases o with
  | none => exact .pure ⟨rfl, rfl⟩
  | some _ =>
      refine .bind typeHint fun hint u taken hhint => .pure ⟨?_, ?_⟩
      · simp [hhint.1]
      · simp [hhint.2]

theorem captures : ShowsAll captures s := by
  refine .skip rfl fun o t => ?_
  cases o with
  | none => exact .pure rfl
  | some _ =>
      refine .take rfl fun _ u => ?_
      exact (closedList fun v => .skip rfl fun _ w => variable_).bind fun r w => .pure (by simp)

theorem closure (hd : d.Showing) : Shows (closure d) s := by
  refine .here (.skip rfl fun _ t => .take rfl fun _ u => .skip rfl fun _ v => ?_)
  refine (parameters hd).bind fun ps w => ShowsAll.bind captures fun cs x => .bind returnType ?_
  rintro result y _ ⟨hresult, rfl⟩
  exact (block hd).bind fun body z => .pure (by simp [NodeKind.isValue, hresult])

theorem function (hd : d.Showing) : Shows (function d) s := by
  refine .take rfl fun first t => .skip rfl fun _ u => .take rfl fun name v => ?_
  refine (parameters hd).bind fun ps w => .bind returnType ?_
  rintro result x _ ⟨hresult, rfl⟩
  exact (block hd).bind fun body y => .pure (by simp [NodeKind.isValue, hresult])

theorem method (hd : d.Showing) (first : Nat) (found : Modifiers) :
    Shows (method d first found) s := by
  refine .take rfl fun _ t => .skip rfl fun _ u => .plain anyName fun name v => ?_
  refine (parameters hd).bind fun ps w => .bind returnType ?_
  rintro result x _ ⟨hresult, rfl⟩
  refine .ahead (.ite (fun _ => ?_) fun _ => ?_)
  · exact (block hd).bind fun body y => .pure (by simp [NodeKind.isValue, hresult])
  · exact .plain .terminator fun last y => .pure (by simp [NodeKind.isValue, hresult])

-- Expressions, from their smallest parts on.

theorem parenthesized (hd : d.Showing) : Shows (parenthesized d) s := by
  refine .take rfl fun _ t => Shows.bind (hd .expression t) fun inner u => ?_
  exact .take rfl fun _ v => .pure (by simp)

theorem arguments (hd : d.Showing) : Shows (arguments d) s := by
  refine .take rfl fun first t => (closedList fun u => ?_).bind fun r u => .pure (by simp [NodeKind.isValue])
  exact .skip rfl fun _ v => hd .expression v

theorem arrayElement (hd : d.Showing) : Shows (arrayElement d) s := by
  refine .here (.skip rfl fun _ t => .skip rfl fun _ u => ?_)
  refine Shows.bind (hd .expression u) fun head v => .skip rfl fun o w => ?_
  cases o with
  | none => exact .pure (by simp [NodeKind.isValue])
  | some _ =>
      refine .skip rfl fun _ x => Shows.bind (hd .expression x) fun value y => ?_
      exact .pure (by simp [NodeKind.isValue])

theorem arrayRest (hd : d.Showing) (first : Nat) (close : Symbol) :
    Shows (arrayRest d first close) s :=
  (closedList fun u => arrayElement hd).bind fun r t => .pure (by simp [NodeKind.isValue])

theorem allocation (hd : d.Showing) : Shows (allocation d) s := by
  refine .take rfl fun first t => Shows.bind classReference fun type u => ?_
  refine .ahead (.ite (fun _ => ?_) fun _ => .pure (by simp [NodeKind.isValue]))
  exact (arguments hd).bind fun args v => .pure (by simp [NodeKind.isValue])

-- A literal shows a value just if its terminal is one.
theorem isValue_of_literalKind? {kind : TokenKind} {literal : LiteralKind}
    (h : literalKind? kind = some literal) : (NodeKind.literal literal).isValue = kind.isValue := by
  unfold literalKind? at h
  split at h <;> cases h <;> rfl

theorem primary (hd : d.Showing) : Shows (primary d) s := by
  have name : Shows (do return (← Parser.qualifiedName).node .identifier) s :=
    .plain qualifiedName fun name t => .pure (values_name _ rfl name)
  refine .ahead ?_
  split
  · exact .fail _
  · rename_i kind hkind
    split
    · exact leaf hkind (isValue_of_literalKind? ‹_›)
    split
    · exact leaf hkind rfl
    · exact parenthesized hd
    · exact .pass hkind rfl fun first t _ => arrayRest hd first _
    · refine .ahead (.ite (fun hparen => ?_) fun _ => .unexpected _)
      refine .pass hkind rfl fun first t ht => ?_
      have hsecond : (t.rest[0]?).map (·.kind) = some (.symbol .leftParen) := by
        rwa [ht, List.getElem?_tail]
      exact .pass hsecond rfl fun _ u _ => arrayRest hd first _
    · exact allocation hd
    · exact closure hd
    · exact .ahead (.ite (fun _ => closure hd) fun _ => leaf hkind rfl)
    · exact name
    · exact name
    · exact name
    · exact .unexpected _

theorem memberName (hd : d.Showing) : Shows (memberName d) s := by
  refine .ahead ?_
  split
  · exact leaf ‹_› rfl
  · refine .pass ‹_› rfl fun _ t _ => Shows.bind (hd .expression t) fun inner u => ?_
    exact .take rfl fun _ v => .pure (by simp)
  · exact .plain anyName fun name t => .pure (by simp [NodeKind.isValue])

-- What follows the draft that was read so far takes its own values.

section Continued

variable {base : Draft}

theorem access (hd : d.Showing) {kind : NodeKind} (h : kind.isValue = false) {token : TokenKind}
    (htoken : (s.rest[0]?).map (·.kind) = some token) (hplain : token.isValue = false) :
    Gives (access d kind base) s fun r taken => r.values = base.values ++ taken :=
  .pass htoken hplain fun _ t _ => (memberName hd).bind fun member u => .pure (by simp [h])

theorem indexed (hd : d.Showing) {token : TokenKind}
    (htoken : (s.rest[0]?).map (·.kind) = some token) (hplain : token.isValue = false) :
    Gives (indexed d base) s fun r taken => r.values = base.values ++ taken := by
  refine .pass htoken hplain fun _ t _ => .skip rfl fun o u => ?_
  cases o with
  | some last => exact .pure (by simp [NodeKind.isValue])
  | none =>
      refine Shows.bind (hd .expression u) fun key v => .take rfl fun last w => ?_
      exact .pure (by simp [NodeKind.isValue])

theorem call (hd : d.Showing) :
    Gives (call d base) s fun r taken => r.values = base.values ++ taken :=
  (arguments hd).bind fun args t => .pure (by simp [NodeKind.isValue])

-- One round of a loop that goes on from `base` or ends with it.
def GoesOn (base : Draft) : Round Draft Draft → List Image → Prop
  | .again r, taken | .done r, taken => r.values = base.values ++ taken

theorem GoesOn.loop {step : Draft → Parser (Round Draft Draft)}
    (h : ∀ base t, Gives (step base) t (GoesOn base)) :
    Gives (iterate step base) s fun r taken => r.values = base.values ++ taken := by
  refine Gives.iterate (fun r taken => r.values = base.values ++ taken) (by simp) ?_
  intro r t taken hr
  refine (h r t).mono fun round more hround => ?_
  cases round <;> exact Eq.trans hround (by rw [hr, List.append_assoc])

theorem postfixRound (hd : d.Showing) : Gives (postfixRound d base) s (GoesOn base) := by
  have step {p : Parser Draft} (hp : Gives p s fun r taken => r.values = base.values ++ taken) :
      Gives (do return .again (← p)) s (GoesOn base) :=
    hp.bind fun r t taken hr => .pure (by simpa [GoesOn] using hr)
  have operator {token : TokenKind} (htoken : (s.rest[0]?).map (·.kind) = some token)
      (hplain : token.isValue = false) : Gives (do
        let operator ← Parser.next
        return .again ⟨{ kind := .postfixOperation, first := base.first, last := operator
                         image := .tokens operator operator }, [base]⟩) s (GoesOn base) :=
    .pass htoken hplain fun _ _ _ => .pure (by simp [GoesOn, NodeKind.isValue])
  refine .ahead ?_
  split
  · exact step (call hd)
  · exact step (access hd rfl ‹_› rfl)
  · exact step (access hd rfl ‹_› rfl)
  · exact step (indexed hd ‹_› rfl)
  · exact operator ‹_› rfl
  · exact operator ‹_› rfl
  · exact .pure (by simp [GoesOn])

theorem postfixed (hd : d.Showing) : Shows (postfixed d) s :=
  (primary hd).bind fun _ _ => GoesOn.loop fun _ _ => postfixRound hd

theorem power (hd : d.Showing) : Shows (power d) s := by
  refine (postfixed hd).bind fun base t => .skip rfl fun o u => ?_
  cases o with
  | none => exact .pure (by simp)
  | some operator =>
      refine Shows.bind (hd .unary u) fun right v => .pure ?_
      simp [Draft.values_joining .binary rfl]

theorem prefixed {kind : NodeKind} (h : kind.isValue = false) {image : Nat → Image}
    {operand : Parser Draft} {token : TokenKind}
    (htoken : (s.rest[0]?).map (·.kind) = some token) (hplain : token.isValue = false)
    (hoperand : ∀ t, Shows operand t) : Shows (prefixed kind image operand) s :=
  .pass htoken hplain fun _ t _ => (hoperand t).bind fun inner u => .pure (by simp [h])

theorem atCast {Q : β → List Image → Prop} {f : Bool → Parser β}
    (hf : Gives (f ((s.rest[1]?).any (·.namesCast) &&
      (s.rest[2]?).map (·.kind) = some (.symbol .rightParen))) s Q) :
    Gives (Parser.atCast >>= f) s Q := hf

theorem cast (hd : d.Showing) (hopen : (s.rest[0]?).map (·.kind) = some (.symbol .leftParen))
    (hname : (s.rest[1]?).any (·.namesCast) = true)
    (hclose : (s.rest[2]?).map (·.kind) = some (.symbol .rightParen)) : Shows (cast d) s := by
  refine .pass hopen rfl fun first t ht => .proper fun hproper => ?_
  obtain ⟨m, hm, hcast⟩ := (Option.any_eq_true _ _).1 hname
  rw [← List.getElem?_tail, ← ht] at hm
  refine .pass (by rw [hm]; rfl) (hproper m (List.mem_of_getElem? hm) hcast) fun target u hu => ?_
  have hlast : (u.rest[0]?).map (·.kind) = some (.symbol .rightParen) := by
    rwa [hu, List.getElem?_tail, ht, List.getElem?_tail]
  refine .pass hlast rfl fun _ v _ => Shows.bind (hd .unary v) fun inner w => .pure ?_
  simp [NodeKind.isValue]

theorem unary (hd : d.Showing) : Shows (unary d) s := by
  refine .ahead ?_
  split
  · exact prefixed rfl ‹_› rfl (hd (.operands _))
  iterate 6 exact prefixed rfl ‹_› rfl (hd .unary)
  iterate 4 exact prefixed rfl ‹_› rfl (hd .assigned)
  · exact prefixed rfl ‹_› rfl (hd .assigned)
  · exact prefixed rfl ‹_› rfl (hd .unary)
  · refine atCast (.ite (fun hcast => ?_) fun _ => power hd)
    obtain ⟨hname, hclose⟩ := Bool.and_eq_true_iff.1 hcast
    exact cast hd ‹_› hname (of_decide_eq_true hclose)
  · exact power hd

theorem isValue_of_ofKind? {kind : TokenKind} {binding : Binding}
    (h : Binding.ofKind? kind = some binding) : kind.isValue = false := by
  cases kind <;> first | rfl | cases h

theorem operandRound (hd : d.Showing) (minimum : Nat) :
    Gives (operandRound d minimum base) s (GoesOn base) := by
  refine .ahead ?_
  split
  · exact .pure (by simp [GoesOn])
  · rename_i binding hbinding
    obtain ⟨kind, hkind, hofKind⟩ := Option.bind_eq_some_iff.1 hbinding
    refine .ite (fun _ => .pure (by simp [GoesOn])) fun _ => ?_
    refine .pass hkind (isValue_of_ofKind? hofKind) fun operator t _ => .ite (fun _ => ?_) fun _ => ?_
    · refine Shows.bind classReference fun right u => .pure ?_
      simp [GoesOn, Draft.values_joining .instanceOf rfl]
    · refine Shows.bind (hd (.operands binding.rightMinimum) t) fun right u => .pure ?_
      simp [GoesOn, Draft.values_joining .binary rfl]

theorem operands (hd : d.Showing) (minimum : Nat) : Shows (operands d minimum) s :=
  (unary hd).bind fun _ _ => GoesOn.loop fun _ _ => operandRound hd minimum

theorem conditional (hd : d.Showing) : Shows (conditional d) s := by
  refine (operands hd 0).bind fun condition t => .skip rfl fun o u => ?_
  cases o with
  | some question => exact hd (.branches question condition) u
  | none => exact .pure (by simp)

theorem isValue_of_isAssignment {kind : TokenKind} (h : kind.isAssignment = true) :
    kind.isValue = false := by
  cases kind <;> first | rfl | cases h

theorem assignment (hd : d.Showing) : Shows (assignment d) s := by
  have mark (kind : TokenKind) (t : Input) : Gives (referenceMark kind) t fun _ taken => taken = [] :=
    .ite (fun _ => (Gives.accept _).mono fun _ _ h => h) fun _ => .pure rfl
  refine (conditional hd).bind fun left t => .ahead ?_
  cases hkind : (t.rest[0]?).map (·.kind) with
  | none => exact .pure (by simp)
  | some kind =>
      refine .ite (fun hassigns => ?_) fun _ => .pure (by simp)
      refine .pass hkind (isValue_of_isAssignment hassigns) fun operator u _ => .plain (mark kind u) ?_
      refine fun _ v => Shows.bind (hd .assigned v) fun right w => .pure ?_
      simp [Draft.values_joining .assignment rfl]

theorem branches (hd : d.Showing) (question : Nat) (condition : Draft) :
    Gives (branches d question condition) s fun r taken =>
      r.values = condition.values ++ taken := by
  refine .skip rfl fun o t => ?_
  cases o with
  | some colon => exact (assignment hd).bind fun otherwise u => .pure (by simp [NodeKind.isValue])
  | none =>
      refine (assignment hd).bind fun chosen u => .take rfl fun _ v => ?_
      exact (assignment hd).bind fun otherwise w => .pure (by simp [NodeKind.isValue])

theorem joined (operator : Keyword) {operand : Parser Draft} (h : ∀ t, Shows operand t) :
    Shows (joined operator operand) s := by
  refine (h s).bind fun base t => GoesOn.loop fun left u => .skip rfl fun o v => ?_
  cases o with
  | none => exact .pure (by simp [GoesOn])
  | some operator =>
      refine (h v).bind fun right w => .pure ?_
      simp [GoesOn, Draft.values_joining .binary rfl]

theorem expression (hd : d.Showing) : Shows (expression d) s :=
  joined .kwOr fun _ => joined .kwAnd fun _ => assignment hd

end Continued

end Census.Grammar.Parser.Shows
