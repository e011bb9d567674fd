import Census.Proofs.Grammar.Placement

namespace Census.Grammar

namespace Parser.Puts

variable {levels room : Nat} {s : Input} {d : Deeper}

-- An empty statement counts as a block of its own token.
theorem body (hd : d.Placing levels) (hr : 2 * s.stop + 2 ≤ room + 2 * s.index) :
    Puts levels room (body d) s := by
  refine .here ((hd .statement s room hr).bind fun statement t _ _ h => ?_)
  cases statement with
  | some _ => exact .pure h.2.1
  | none => exact .pure (.node (.nil (Nat.le_refl s.index)) ⟨by omega, by omega, by omega, by omega, h.1⟩)

-- A clause reaches back to its keyword, which stands right in front of it.
theorem clauses {clause : Nat → Parser Draft} (keyword : Keyword)
    (h : ∀ first t, s.index ≤ t.index → t.stop = s.stop → t.index = first + 1 →
      Run levels room (clause first) t fun c u => Sits first u.index c) :
    PutsAll levels room (clauses keyword clause) s := by
  refine .iterate (fun found t => Row [] s.index t.index found) (.nil (Nat.le_refl _))
    fun found t _ _ hrow => .accept (fun u _ hu => ?_) (.pure hrow)
  exact (h t.index u (by omega) (by omega) hu).bind fun c v _ _ hc =>
    .pure (hrow.append hc.row (Nat.le_refl _))

theorem clause? {clause : Nat → Parser Draft} (keyword : Keyword)
    (h : ∀ first t, s.index ≤ t.index → t.stop = s.stop → t.index = first + 1 →
      Run levels room (clause first) t fun c u => Sits first u.index c) :
    PutsAny levels room (clause? keyword clause) s := by
  refine .accept (fun t _ ht => ?_) (.pure (.nil (Nat.le_refl _)))
  exact (h s.index t (by omega) (by omega) ht).bind fun c u _ _ hc => .pure hc.row

theorem lastOf_row {lo hi : Nat} {head : Draft} {rest : List Draft}
    (h : Row [] lo hi (head :: rest)) :
    Row [] lo (lastOf head rest + 1) (head :: rest) ∧ lastOf head rest < hi := by
  have hlast := h.through_last
  rwa [List.getLast?_cons, ← List.getLastD_eq_getLast?] at hlast

theorem elseIfBranch (hd : d.Placing levels) (hr : 2 * s.stop ≤ room + 2 * s.index) {first : Nat}
    (hf : s.index = first + 1) :
    Run levels room (elseIfBranch d first) s fun c t => Sits first t.index c := by
  apply (parenthesized hd hr).bind
  intro condition t _ _ hc
  have hb' := hc.bounds
  apply (body hd (by omega)).bind
  intro body u _ _ hb
  have hb'' := hb.bounds
  exact .pure (.node (hc.row.append hb.tight.row (Nat.le_refl _)) (by omega))

theorem elseBranch (hd : d.Placing levels) (hr : 2 * s.stop + 2 ≤ room + 2 * s.index) {first : Nat}
    (hf : s.index = first + 1) :
    Run levels room (elseBranch d first) s fun c t => Sits first t.index c := by
  apply (body hd hr).bind
  intro body t _ _ hb
  have hb' := hb.bounds
  exact .pure (.node hb.tight.row (by omega))

theorem ifStatement (hd : d.Placing levels) (hr : 2 * s.stop ≤ room + 2 * s.index) :
    Puts levels room (ifStatement d) s := by
  apply Run.expect.bind
  intro first t _ _ ht
  obtain ⟨rfl, ht⟩ := ht
  apply (parenthesized hd (by omega)).bind
  intro condition u _ _ hc
  apply (body hd (by omega)).bind
  intro chosen v _ _ hb
  refine (clauses _ fun first w _ _ hw => elseIfBranch hd (by omega) hw).bind
    fun elseIfs w _ _ he => ?_
  refine (clause? _ fun first x _ _ hx => elseBranch hd (by omega) hx).bind
    fun otherwise x _ _ ho => ?_
  have hall : Row [] u.index x.index (chosen :: (elseIfs ++ otherwise.toList)) :=
    hb.row.append (he.append ho (Nat.le_refl _)) (Nat.le_refl _)
  obtain ⟨hrow, hlt⟩ := lastOf_row hall
  have hb' := hc.bounds
  have hle := hrow.le
  exact .pure (.node (hc.row.append hrow (Nat.le_refl _)) (by omega))

theorem whileLoop (hd : d.Placing levels) (hr : 2 * s.stop ≤ room + 2 * s.index) :
    Puts levels room (whileLoop d) s := by
  apply Run.expect.bind
  intro first t _ _ ht
  obtain ⟨rfl, ht⟩ := ht
  apply (parenthesized hd (by omega)).bind
  intro condition u _ _ hc
  refine (body hd (by omega)).bind fun body v _ _ hb => ?_
  have hb' := hc.bounds
  have hb'' := hb.bounds
  exact .pure (.node (hc.row.append hb.tight.row (Nat.le_refl _)) (by omega))

theorem doWhileLoop (hd : d.Placing levels) (hr : 2 * s.stop ≤ room + 2 * s.index) :
    Puts levels room (doWhileLoop d) s := by
  refine Run.expect.bind fun first t _ _ ht => ?_
  obtain ⟨rfl, ht⟩ := ht
  refine (body hd (by omega)).bind fun body u _ _ hb => Run.expect.bind fun _ v _ _ _ => ?_
  refine (parenthesized hd (by omega)).bind fun condition w _ _ hc => ?_
  refine Run.terminator.bind fun last x _ _ hl => ?_
  obtain ⟨rfl, hl⟩ := hl
  exact .pure (.node (hb.row.append hc.row (by omega)) (by omega))

theorem forLoop (hd : d.Placing levels) (hr : 2 * s.stop ≤ room + 2 * s.index) :
    Puts levels room (forLoop d) s := by
  refine Run.expect.bind fun first t _ _ ht => Run.expect.bind fun _ u _ _ _ => ?_
  obtain ⟨rfl, ht⟩ := ht
  refine (closedList fun v _ _ => deeper_expression hd (by omega)).bind fun starts v _ _ hs => ?_
  refine (closedList fun w _ _ => deeper_expression hd (by omega)).bind fun conditions w _ _ hc => ?_
  refine (closedList fun x _ _ => deeper_expression hd (by omega)).bind fun steps x _ _ hp => ?_
  refine (body hd (by omega)).bind fun body y _ _ hb => ?_
  have hb' := hb.bounds
  have hrow := ((hs.1.append hc.1 (by omega)).append hp.1 (by omega)).append hb.tight.row (by omega)
  exact .pure (.node hrow (by omega))

theorem foreachValue (hd : d.Placing levels) (hr : 2 * s.stop ≤ room + 2 * s.index) :
    PutsAny levels room (foreachValue d) s := by
  refine .accept (fun t _ ht => .skip fun _ u _ _ => ?_) (.pure (.nil (Nat.le_refl _)))
  exact (deeper_expression hd (by omega)).bind fun value v _ _ hv =>
    .pure (hv.row.mono (by omega) (Nat.le_refl _))

theorem foreachLoop (hd : d.Placing levels) (hr : 2 * s.stop ≤ room + 2 * s.index) :
    Puts levels room (foreachLoop d) s := by
  refine Run.expect.bind fun first t _ _ ht => Run.expect.bind fun _ u _ _ _ => ?_
  obtain ⟨rfl, ht⟩ := ht
  apply (deeper_expression hd (by omega)).bind
  intro subject v _ _ hs
  refine Run.expect.bind fun _ w _ _ _ => .skip fun _ x _ _ => ?_
  apply (deeper_expression hd (by omega)).bind
  intro target y _ _ hg
  refine (foreachValue hd (by omega)).bind fun value z _ _ hv => Run.expect.bind fun _ z' _ _ _ => ?_
  refine (body hd (by omega)).bind fun body z'' _ _ hb => ?_
  have hb' := hb.bounds
  have hrow := ((hs.row.append hg.row (by omega)).append hv (by omega)).append hb.tight.row (by omega)
  exact .pure (.node hrow (by omega))

theorem switchCases (hd : d.Placing levels) (hr : 2 * s.stop + 1 ≤ room + 2 * s.index) :
    PutsUpTo levels room (switchCases d) s := by
  refine .iterate (fun cases t => Row [] s.index t.index cases) (.nil (Nat.le_refl _))
    fun cases t _ _ hrow => .accept (fun u _ hu => .pure ⟨hrow, hu⟩) ?_
  exact (hd .switchCase t room (by simp only [Goal.need]; omega)).bind fun c u _ _ hc =>
    .pure (hrow.append (Sits.row hc) (Nat.le_refl _))

theorem switchStatement (hd : d.Placing levels) (hr : 2 * s.stop ≤ room + 2 * s.index) :
    Puts levels room (switchStatement d) s := by
  apply Run.expect.bind
  intro first t _ _ ht
  obtain ⟨rfl, ht⟩ := ht
  refine (parenthesized hd (by omega)).bind fun subject u _ _ hs => Run.expect.bind fun _ v _ _ hv => ?_
  obtain ⟨-, hv⟩ := hv
  apply (switchCases hd (by omega)).bind
  intro r w _ _ hc
  have hle := hc.1.le
  exact .pure (.node (hs.row.append hc.1 (by omega)) (by omega))

theorem caseMark : Run levels room caseMark s (Run.Took s) := by
  refine .ahead fun kind => ?_
  split
  · exact .next
  · exact .next
  · exact .unexpected _

theorem caseStatements (hd : d.Placing levels) (hr : 2 * s.stop + 2 ≤ room + 2 * s.index) :
    PutsAll levels room (caseStatements d) s := by
  refine .iterate (fun found t => Row [] s.index t.index found) (.nil (Nat.le_refl _))
    fun found t _ _ hrow => .ahead fun kind => ?_
  split
  · exact .atEnd
  · exact .pure hrow
  · exact .pure hrow
  · exact .pure hrow
  · exact (deeper_statement hd (by omega)).bind fun _ u _ _ h =>
      .pure (hrow.append h (Nat.le_refl _))

theorem caseRest (hd : d.Placing levels) (hr : 2 * s.stop + 1 ≤ room + 2 * s.index) (kind : NodeKind)
    {first : Nat} {value : List Draft} (hv : Row [] first s.index value) :
    Run levels room (caseRest d kind first value) s fun c t => Sits first t.index c := by
  have hle := hv.le
  apply caseMark.bind
  intro mark t _ _ hm
  obtain ⟨rfl, hm⟩ := hm
  apply (caseStatements hd (by omega)).bind
  intro statements u _ _ hs
  obtain ⟨hrow, hle', hlt⟩ := hs.ending hm
  exact .pure (.node (hv.append hrow (by omega)) (by omega))

theorem switchCase (hd : d.Placing levels) (hr : 2 * s.stop ≤ room + 2 * s.index) :
    Puts levels room (switchCase d) s := by
  refine .ahead fun kind => ?_
  split
  · apply Run.next.bind
    intro first t _ _ ht
    obtain ⟨rfl, ht⟩ := ht
    refine (deeper_expression hd (by omega)).bind fun value u _ _ hv => ?_
    have hb := hv.bounds
    exact caseRest hd (by omega) _ (hv.row.mono (by omega) (Nat.le_refl _))
  · refine Run.next.bind fun first t _ _ ht => ?_
    obtain ⟨rfl, ht⟩ := ht
    exact caseRest hd (by omega) _ (.nil (by omega))
  · exact .unexpected _

theorem caughtTypes : PutsAll levels room caughtTypes s := by
  refine .iterate (fun types t => Row [] s.index t.index types) (.nil (Nat.le_refl _))
    fun types t _ _ hrow => qualifiedName.bind fun name u _ _ hn => ?_
  have hall : Row [] s.index u.index (types ++ [name.node .typeHint]) :=
    hrow.append (nameNode hn).row (Nat.le_refl _)
  exact .accept (fun v _ hv => .pure (hall.mono (Nat.le_refl _) (by omega))) (.pure hall)

-- A part that may be missing and that shows one terminal.
theorem leaf? {token : TokenKind} (kind : NodeKind) :
    Run levels room (accept token) s fun o t =>
      Row [] s.index t.index (o.map (Draft.leaf kind)).toList := by
  refine .ahead fun _ => .ite (Run.next.bind fun i t _ _ h => ?_) (.pure (.nil (Nat.le_refl _)))
  exact .pure (leaf h).row

theorem catchClause (hd : d.Placing levels) (hr : 2 * s.stop ≤ room + 2 * s.index) {first : Nat}
    (hf : s.index = first + 1) :
    Run levels room (catchClause d first) s fun c t => Sits first t.index c := by
  refine Run.expect.bind fun _ t _ _ _ => caughtTypes.bind fun types u _ _ ht => ?_
  refine (leaf? .variableName).bind fun caught v _ _ hc => Run.expect.bind fun _ w _ _ _ => ?_
  apply (block hd (by omega)).bind
  intro block x _ _ hb
  have hb' := hb.bounds
  have hrow := (ht.append hc (Nat.le_refl _)).append hb.tight.row (by omega)
  exact .pure (.node hrow (by omega))

theorem finallyClause (hd : d.Placing levels) (hr : 2 * s.stop ≤ room + 2 * s.index) {first : Nat}
    (hf : s.index = first + 1) :
    Run levels room (finallyClause d first) s fun c t => Sits first t.index c := by
  apply (block hd hr).bind
  intro block t _ _ hb
  have hb' := hb.bounds
  exact .pure (.node hb.tight.row (by omega))

theorem tryStatement (hd : d.Placing levels) (hr : 2 * s.stop ≤ room + 2 * s.index) :
    Puts levels room (tryStatement d) s := by
  apply Run.expect.bind
  intro first t _ _ ht
  obtain ⟨rfl, ht⟩ := ht
  refine (block hd (by omega)).bind fun guarded u _ _ hg => ?_
  refine (clauses _ fun first v _ _ hv => catchClause hd (by omega) hv).bind
    fun catches v _ _ hc => ?_
  refine (clause? _ fun first w _ _ hw => finallyClause hd (by omega) hw).bind
    fun final w _ _ hf => .ite (.unexpected _) ?_
  have hall : Row [] t.index w.index (guarded :: (catches ++ final.toList)) :=
    hg.row.append (hc.append hf (Nat.le_refl _)) (Nat.le_refl _)
  obtain ⟨hrow, hlt⟩ := lastOf_row hall
  have hle := hrow.le
  exact .pure (.node hrow (by omega))

theorem returnStatement (hd : d.Placing levels) (hr : 2 * s.stop ≤ room + 2 * s.index) :
    Puts levels room (returnStatement d) s := by
  apply Run.expect.bind
  intro first t _ _ ht
  obtain ⟨rfl, ht⟩ := ht
  have value : PutsAny levels room (returnValue d) t := by
    refine .ahead fun kind => ?_
    split
    · exact .pure (.nil (Nat.le_refl _))
    · exact .pure (.nil (Nat.le_refl _))
    · exact (deeper_expression hd (by omega)).bind fun _ _ _ _ h => .pure h.row
  refine value.bind fun value u _ _ hv => Run.terminator.bind fun last v _ _ hl => ?_
  obtain ⟨rfl, hl⟩ := hl
  exact .pure (.node hv (by omega))

theorem throwStatement (hd : d.Placing levels) (hr : 2 * s.stop ≤ room + 2 * s.index) :
    Puts levels room (throwStatement d) s := by
  apply Run.expect.bind
  intro first t _ _ ht
  obtain ⟨rfl, ht⟩ := ht
  apply (deeper_expression hd (by omega)).bind
  intro value u _ _ hv
  apply Run.terminator.bind
  intro last v _ _ hl
  obtain ⟨rfl, hl⟩ := hl
  exact .pure (.node hv.row (by omega))

theorem echoStatement (hd : d.Placing levels) (hr : 2 * s.stop ≤ room + 2 * s.index) :
    Puts levels room (echoStatement d) s := by
  apply Run.expect.bind
  intro first t _ _ ht
  obtain ⟨rfl, ht⟩ := ht
  refine (commaList fun u _ _ => deeper_expression hd (by omega)).bind fun values u _ _ hv => ?_
  apply Run.terminator.bind
  intro last v _ _ hl
  obtain ⟨rfl, hl⟩ := hl
  exact .pure (.node hv.1 (by omega))

theorem jump (kind : NodeKind) : Puts levels room (jump kind) s := by
  refine Run.next.bind fun first t _ _ ht => (leaf? (.literal .integer)).bind fun count u _ _ hc => ?_
  obtain ⟨rfl, ht⟩ := ht
  apply Run.terminator.bind
  intro last v _ _ hl
  obtain ⟨rfl, hl⟩ := hl
  exact .pure (.node hc (by omega))

theorem globalStatement : Puts levels room globalStatement s := by
  apply Run.expect.bind
  intro first t _ _ ht
  obtain ⟨rfl, ht⟩ := ht
  refine (commaList fun _ _ _ => variable_).bind fun names u _ _ hn => ?_
  apply Run.terminator.bind
  intro last v _ _ hl
  obtain ⟨rfl, hl⟩ := hl
  exact .pure (.node hn.1 (by omega))

theorem staticVariable (hd : d.Placing levels) (hr : 2 * s.stop ≤ room + 2 * s.index) :
    Puts levels room (staticVariable d) s := by
  apply variable_.bind
  intro target t _ _ ht
  have hb := ht.bounds
  refine .accept (fun u _ hu => ?_) (.pure ht)
  exact (deeper_expression hd (by omega)).bind fun value v _ _ hv =>
    .pure (ht.joining hv (by omega))

theorem staticVariables (hd : d.Placing levels) (hr : 2 * s.stop ≤ room + 2 * s.index) :
    Puts levels room (staticVariables d) s := by
  apply Run.expect.bind
  intro first t _ _ ht
  obtain ⟨rfl, ht⟩ := ht
  refine (commaList fun u _ _ => staticVariable hd (by omega)).bind fun items u _ _ hi => ?_
  refine Run.terminator.bind fun last v _ _ hl => ?_
  obtain ⟨rfl, hl⟩ := hl
  exact .pure (.node hi.1 (by omega))

theorem expressionStatement (hd : d.Placing levels) (hr : 2 * s.stop + 1 ≤ room + 2 * s.index) :
    Puts levels room (expressionStatement d) s := by
  refine (deeper_expression hd hr).bind fun value t _ _ hv => Run.terminator.bind fun last u _ _ hl => ?_
  obtain ⟨rfl, hl⟩ := hl
  have hb := hv.bounds
  exact .pure (.node hv.self.row (by omega))

theorem fullStatement (hd : d.Placing levels) (hr : 2 * s.stop + 1 ≤ room + 2 * s.index)
    (kind : TokenKind) : Puts levels room (fullStatement d kind) s := by
  have hr' : 2 * s.stop ≤ room + 2 * s.index := by omega
  unfold Parser.fullStatement
  split
  · exact block hd hr'
  · exact ifStatement hd hr'
  · exact whileLoop hd hr'
  · exact doWhileLoop hd hr'
  · exact switchStatement hd hr'
  · exact forLoop hd hr'
  · exact foreachLoop hd hr'
  · exact tryStatement hd hr'
  · exact returnStatement hd hr'
  · exact throwStatement hd hr'
  · exact echoStatement hd hr'
  · exact jump _
  · exact jump _
  · exact globalStatement
  · exact .ahead fun _ => .ite (staticVariables hd hr') (expressionStatement hd hr)
  · exact classDeclaration hd hr'
  · exact classDeclaration hd hr'
  · exact classDeclaration hd hr'
  · exact interfaceDeclaration hd hr'
  · exact traitDeclaration hd hr'
  · refine Run.bind (R := fun _ t => t = s) ?_ fun named t _ _ ht => ?_
    · exact .ahead fun _ => .ite (.pure rfl) (.ahead fun _ => .ahead fun _ => .pure rfl)
    · subst ht
      exact .ite (function hd hr') (expressionStatement hd hr)
  · exact expressionStatement hd hr

theorem statement (hd : d.Placing levels) (hr : 2 * s.stop + 1 ≤ room + 2 * s.index) :
    Run levels room (statement d) s (Goal.Placed s .statement) := by
  refine .looking ?_
  cases hs : s.rest with
  | nil => exact .atEnd
  | cons m rest =>
      have empty (hm : m.isMark = true) : Run levels room (do
          let _ ← next
          return none) s (Goal.Placed s .statement) := by
        simp only [Run, Bind.bind, next, hs, Pure.pure]
        exact ⟨Nat.le_succ _, by simp only [Input.stop, hs, List.length_cons]; omega,
          Nat.lt_succ_self _, .nil (Nat.le_succ _), fun _ => ⟨[m], hs, by simpa using hm⟩⟩
      simp only [List.getElem?_cons_zero, Option.map_some]
      split
      · exact .atEnd
      · rename_i hk
        exact empty (by simp [Terminal.isMark, Option.some.inj hk])
      · rename_i hk
        exact empty (by simp [Terminal.isMark, Option.some.inj hk])
      · refine (fullStatement hd hr _).bind fun statement t _ _ h => .pure ⟨?_, h.row, by simp⟩
        have hb := h.bounds
        omega

-- What stands outside of functions.

theorem topStatement (hd : d.Placing levels) (hr : 2 * s.stop + 2 ≤ room + 2 * s.index) :
    Run levels room (topStatement d) s fun ds t =>
      Row [] s.index t.index ds ∧ (ds = [] → s.Blank t) := by
  refine .ahead fun kind => ?_
  split
  · exact useDeclarations.mono fun _ _ _ _ h => ⟨h.1, fun he => absurd he h.2⟩
  · apply Run.next.bind
    intro first t _ _ ht
    obtain ⟨rfl, ht⟩ := ht
    exact (constants hd (by omega) (by omega)).mono fun _ _ _ _ h =>
      ⟨h.1, fun he => absurd he h.2⟩
  · refine (hd .statement s room hr).bind fun statement t _ _ h => .pure ⟨h.2.1, fun he => ?_⟩
    exact h.2.2 (by simpa using he)

theorem openStatements (hd : d.Placing levels) (hr : 2 * s.stop + 2 ≤ room + 2 * s.index) :
    PutsAll levels room (openStatements d) s := by
  refine .iterate (fun found t => Row [] s.index t.index found) (.nil (Nat.le_refl _))
    fun found t _ _ hrow => .ahead fun kind => ?_
  split
  · exact .pure hrow
  · exact .pure hrow
  · exact (topStatement hd (by omega)).bind fun _ u _ _ h =>
      .pure (hrow.append h.1 (Nat.le_refl _))

theorem namespaceDeclaration (hd : d.Placing levels) (hr : 2 * s.stop + 2 ≤ room + 2 * s.index) :
    Puts levels room (namespaceDeclaration d) s := by
  apply Run.expect.bind
  intro first t _ _ ht
  obtain ⟨rfl, ht⟩ := ht
  have image : Run levels room namespaceImage t fun _ _ => True :=
    .ahead fun _ => .ite (.pure trivial) (qualifiedName.bind fun _ _ _ _ _ => .pure trivial)
  refine image.bind fun image u _ _ _ => .accept (fun v _ hv => ?_) ?_
  · refine (through fun w _ _ => (topStatement hd (by omega)).mono fun _ _ _ _ h => h.1).bind
      fun r w _ _ h => ?_
    have hle := h.1.le
    exact .pure (.node h.1 (by omega))
  · apply Run.terminator.bind
    intro mark v _ _ hm
    obtain ⟨rfl, hm⟩ := hm
    apply (openStatements hd (by omega)).bind
    intro statements w _ _ hs
    obtain ⟨hrow, hle, hlt⟩ := hs.ending hm
    exact .pure (.node hrow (by omega))

-- A file without a node holds nothing but empty statements.
theorem file (hd : d.Placing levels) (hr : 2 * s.stop + 2 ≤ room + 2 * s.index) :
    Run levels room (file d) s fun ds t =>
      Row [] s.index t.index ds ∧ (ds = [] → ∀ m ∈ s.rest, m.isMark = true) := by
  refine .iterate (fun found t => Row [] s.index t.index found ∧ (found = [] → s.Blank t))
    ⟨.nil (Nat.le_refl _), fun _ => ⟨[], rfl, by simp⟩⟩ fun found t _ _ hfound => .looking ?_
  cases ht : t.rest with
  | nil =>
      refine .pure ⟨hfound.1, fun he => ?_⟩
      obtain ⟨marks, hs, hmarks⟩ := hfound.2 he
      rwa [hs, ht, List.append_nil]
  | cons m rest =>
      refine .ahead fun _ => .ite ?_ ?_
      · exact (namespaceDeclaration hd (by omega)).bind fun _ u _ _ h =>
          .pure ⟨hfound.1.append h.row (Nat.le_refl _), by simp⟩
      · apply (topStatement hd (by omega)).bind
        intro ds u _ _ h
        refine .pure ⟨hfound.1.append h.1 (Nat.le_refl _), fun he => ?_⟩
        obtain ⟨hf, hds⟩ := List.append_eq_nil_iff.1 he
        exact (hfound.2 hf).trans (h.2 hds)

end Parser.Puts

-- One level takes one off what is left for the goals below it.
theorem Goal.production_placed {levels room : Nat} {s : Input} {d : Deeper} (hd : d.Placing levels)
    (goal : Goal) (hr : 2 * s.stop + goal.need ≤ room + 1 + 2 * s.index) :
    Parser.Run levels room (goal.production d) s (goal.Placed s) := by
  cases goal with
  | statement => exact Parser.Puts.statement hd (by simp only [Goal.need] at hr; omega)
  | member => exact Parser.Puts.member hd (by simp only [Goal.need] at hr; omega)
  | switchCase => exact Parser.Puts.switchCase hd (by simp only [Goal.need] at hr; omega)
  | expression => exact Parser.Puts.expression hd (by simp only [Goal.need] at hr; omega)
  | assigned => exact Parser.Puts.assignment hd (by simp only [Goal.need] at hr; omega)
  | branches question condition =>
      exact Parser.Puts.branches hd (by simp only [Goal.need] at hr; omega) question condition
  | operands minimum => exact Parser.Puts.operands hd (by simp only [Goal.need] at hr; omega) minimum
  | unary => exact Parser.Puts.unary hd (by simp only [Goal.need] at hr; omega)

theorem Goal.need_pos (goal : Goal) : 0 < goal.need := by
  cases goal <;> exact Nat.zero_lt_succ _

theorem Input.index_le_stop (s : Input) : s.index ≤ s.stop := Nat.le_add_right _ _

-- By induction on the levels: every goal places its result, given that the goals one level
-- deeper do.
theorem parse_placing (levels : Nat) : Deeper.Placing levels (parse levels) := by
  induction levels with
  | zero =>
      intro goal s room hr hroom
      have hneed := goal.need_pos
      have hstop := s.index_le_stop
      omega
  | succ levels ih =>
      intro goal s room hr
      have hneed := goal.need_pos
      have hstop := s.index_le_stop
      have hrun : Parser.Run levels (room - 1) (goal.production (parse levels)) s (goal.Placed s) :=
        Goal.production_placed ih goal (by omega)
      simp only [Parser.Run] at hrun ⊢
      rw [show parse (levels + 1) goal s = goal.production (parse levels) s from rfl]
      cases h : goal.production (parse levels) s with
      | error e =>
          rw [h] at hrun
          exact fun hle => hrun (by omega)
      | ok r =>
          rw [h] at hrun
          exact hrun

-- The run of a file from its first terminal on.
theorem file_run (levels : Nat) (terminals : List Terminal) :
    Parser.Run levels (2 * terminals.length + 2) (Parser.file (parse levels)) ⟨0, terminals⟩
      fun ds t => Row [] 0 t.index ds ∧ (ds = [] → ∀ m ∈ terminals, m.isMark = true) :=
  Parser.Puts.file (parse_placing levels) (by simp [Input.stop])

-- The nodes of a file stand in a row over its terminals.
theorem parseFile_row {levels : Nat} {terminals : List Terminal} {drafts : List Draft}
    (h : parseFile levels terminals = .ok drafts) :
    Row [] 0 terminals.length drafts ∧ (drafts = [] → ∀ m ∈ terminals, m.isMark = true) := by
  have hrun := file_run levels terminals
  simp only [Parser.Run] at hrun
  simp only [parseFile] at h
  cases hf : Parser.file (parse levels) ⟨0, terminals⟩ with
  | error e => simp [hf] at h
  | ok r =>
      rw [hf] at hrun h
      obtain ⟨found, t⟩ := r
      obtain ⟨-, hstop, hrow, hmarks⟩ := hrun
      obtain rfl := Except.ok.inj h
      simp only [Input.stop, Nat.zero_add] at hstop
      exact ⟨hrow.mono (Nat.le_refl _) (by omega), hmarks⟩

-- Two levels for every terminal and two more are enough for any file.
theorem parseFile_deep_enough {levels : Nat} {terminals : List Terminal}
    (h : 2 * terminals.length + 2 ≤ levels) (index : Nat) :
    parseFile levels terminals ≠ .error (.tooDeep index) := by
  have hrun := file_run levels terminals
  simp only [Parser.Run] at hrun
  simp only [parseFile]
  cases hf : Parser.file (parse levels) ⟨0, terminals⟩ with
  | error e =>
      rw [hf] at hrun
      simpa using hrun h index
  | ok r => simp

end Census.Grammar
