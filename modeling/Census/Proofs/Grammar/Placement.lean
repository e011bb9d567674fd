import Census.Proofs.Grammar.Naming
import Census.Proofs.Grammar.Placed

namespace Census.Grammar.Parser.Puts

variable {levels room : Nat} {s : Input} {d : Deeper}

-- The words of a name and what is read off them.

theorem anyName : Run levels room anyName s (Run.Took s) := by
  refine .ahead fun kind => ?_
  cases kind with
  | some kind => exact .ite .next (.unexpected _)
  | none => exact .unexpected _

-- The words of a name reach from the first one behind a leading separator to the last.
theorem qualifiedName_words : Run levels room qualifiedName s fun name t => ∃ lead bare last,
    name = .between s.index lead bare last ∧ s.index ≤ bare ∧ bare ≤ last ∧ last < t.index := by
  have loop (t : Input) (lead : Option Nat) (bare : Nat) (hle : s.index ≤ bare)
      (ht : t.index = bare + 1) : Run levels room (iterate (nameRound s.index lead bare) bare) t
        fun name u => ∃ lead bare last,
          name = .between s.index lead bare last ∧ s.index ≤ bare ∧ bare ≤ last ∧ last < u.index := by
    refine .iterate (fun last u => bare ≤ last ∧ last < u.index) ⟨Nat.le_refl _, by omega⟩
      fun last u _ _ hlast => .ahead fun _ => .ahead fun _ => .ite ?_
        (.pure ⟨lead, bare, last, rfl, hle, hlast⟩)
    refine Run.next.bind fun _ v hv _ _ => Run.next.bind fun i w _ _ hi => ?_
    obtain ⟨rfl, hi⟩ := hi
    exact .pure ⟨by omega, by omega⟩
  rw [qualifiedName_eq]
  refine .here (.accept (fun t _ ht => ?_) ?_)
  · apply anyName.bind
    intro bare u _ _ hu
    obtain ⟨rfl, hu⟩ := hu
    exact loop u _ _ (by omega) hu
  · apply anyName.bind
    intro bare u _ _ hu
    obtain ⟨rfl, hu⟩ := hu
    exact loop u _ _ (Nat.le_refl _) hu

theorem qualifiedName : Run levels room qualifiedName s fun name t =>
    name.first = s.index ∧ s.index ≤ name.last ∧ name.last < t.index := by
  refine qualifiedName_words.mono fun _ _ _ _ h => ?_
  obtain ⟨_, bare, last, rfl, hbare, hlast, hlt⟩ := h
  exact ⟨rfl, Nat.le_trans hbare hlast, hlt⟩

-- A name shown by a node of its own.
theorem nameNode {kind : NodeKind} {name : Name} {t : Input}
    (h : name.first = s.index ∧ s.index ≤ name.last ∧ name.last < t.index) :
    Sits s.index t.index (name.node kind) :=
  .node (.nil (Nat.le_refl s.index)) (by omega)

theorem leaf {kind : NodeKind} {token : Nat} {t : Input} (h : Run.Took s token t) :
    Sits s.index t.index (.leaf kind token) := by
  obtain ⟨rfl, h⟩ := h
  exact .leaf (Nat.le_refl _) (by omega)

theorem variable_ : Puts levels room variable_ s :=
  Run.expect.bind fun _ _ _ _ h => .pure (leaf h)

theorem classReference : Puts levels room classReference s := by
  refine .ahead fun kind => ?_
  split
  · exact Run.next.bind fun _ _ _ _ h => .pure (leaf h)
  · exact Run.next.bind fun _ _ _ _ h => .pure (leaf h)
  · exact qualifiedName.bind fun _ _ _ _ h => .pure (nameNode h)

-- Each modifier is a token.
theorem modifiers : Run levels room modifiers s fun found t =>
    found.isEmpty = false → s.index < t.index := by
  refine .iterate (fun found t => found.isEmpty = false → s.index < t.index) nofun
    fun found t hle _ hfound => .ahead fun kind => ?_
  split
  · exact .pure hfound
  · refine .ahead fun _ => .ite (.pure hfound) (Run.next.bind fun _ u _ _ hu => .pure fun _ => ?_)
    rw [hu.2]
    exact Nat.lt_succ_of_le hle

theorem typeName : Run levels room typeName s fun name t =>
    s.index ≤ name.last ∧ name.last < t.index := by
  have word : Run levels room (do return Name.word (← next)) s fun name t =>
      s.index ≤ name.last ∧ name.last < t.index := by
    refine Run.next.bind fun i t _ _ h => .pure ?_
    obtain ⟨rfl, h⟩ := h
    exact ⟨Nat.le_refl _, by rw [Name.word, h]; exact Nat.lt_succ_self _⟩
  refine .ahead fun kind => ?_
  split
  · exact word
  · exact word
  · exact word
  · exact word
  · exact qualifiedName.mono fun _ _ _ _ h => h.2

theorem typeHint : Run levels room typeHint s fun d t =>
    d.label.kind = .typeHint ∧ Sits s.index t.index d := by
  have names (text : List Nat) (t : Input) : Run levels room (typeNames text) t fun r u =>
      t.index ≤ r.2 ∧ r.2 < u.index := by
    refine .iterate (fun _ _ => True) trivial fun _ u hu _ _ => ?_
    refine typeName.bind fun name v _ _ hname => .accept (fun _ _ _ => .pure trivial) (.pure ?_)
    omega
  refine .here (.accept (fun t _ ht => ?_) ?_)
  · exact (names _ t).bind fun r u _ _ hu =>
      .pure ⟨rfl, .node (.nil (Nat.le_refl s.index)) (by omega)⟩
  · exact (names _ s).bind fun r u _ _ hu =>
      .pure ⟨rfl, .node (.nil (Nat.le_refl s.index)) (by omega)⟩

-- What goes one level deeper.

theorem deeper_expression (hd : d.Placing levels) (hr : 2 * s.stop + 1 ≤ room + 2 * s.index) :
    Puts levels room (d .expression) s := hd .expression s room hr

theorem deeper_statement (hd : d.Placing levels) (hr : 2 * s.stop + 2 ≤ room + 2 * s.index) :
    PutsAny levels room (d .statement) s :=
  (hd .statement s room hr).mono fun _ _ _ _ h => h.2.1

-- Functions and their parts.

theorem block (hd : d.Placing levels) (hr : 2 * s.stop ≤ room + 2 * s.index) :
    Puts levels room (block d) s := by
  apply Run.expect.bind
  intro first t _ _ h
  obtain ⟨rfl, h⟩ := h
  have items : PutsUpTo levels room
      (Parser.through .rightBrace (Option.toList <$> d .statement)) t :=
    through fun u _ _ => .map (deeper_statement hd (by omega))
  apply items.bind
  intro r u _ _ hu
  have hle := hu.1.le
  exact .pure (.node hu.1 (by omega))

theorem initial (hd : d.Placing levels) (hr : 2 * s.stop ≤ room + 2 * s.index) :
    PutsAny levels room (initial d) s := by
  refine .accept (fun t _ ht => ?_) (.pure (.nil (Nat.le_refl _)))
  apply (deeper_expression hd (by omega)).bind
  intro value u _ _ hv
  exact .pure (hv.row.mono (by omega) (Nat.le_refl _))

theorem parameterHint : PutsAny levels room parameterHint s := by
  refine .ahead fun kind => ?_
  split
  · exact .pure (.nil (Nat.le_refl _))
  · exact .pure (.nil (Nat.le_refl _))
  · exact .pure (.nil (Nat.le_refl _))
  · exact typeHint.bind fun _ _ _ _ h => .pure h.2.row

-- A part that may be missing right behind token `name`. With it, the whole reaches to its end.
theorem optional {name a hi : Nat} {part : Option Draft} (h : Row [] a hi part.toList)
    (ha : a = name + 1) : Row [] a ((part.map Draft.last).getD name + 1) part.toList ∧
      name ≤ (part.map Draft.last).getD name ∧ (part.map Draft.last).getD name < hi := by
  have hend := h.ending ha
  rwa [show part.toList.getLast? = part by cases part <;> rfl] at hend

theorem parameter (hd : d.Placing levels) (hr : 2 * s.stop ≤ room + 2 * s.index) :
    Puts levels room (parameter d) s := by
  refine .here (modifiers.bind fun _ t _ _ _ => parameterHint.bind fun hint u _ _ hh => ?_)
  refine .skip fun _ v _ _ => .skip fun _ w _ _ => Run.expect.bind fun name x _ _ h => ?_
  obtain ⟨rfl, h⟩ := h
  apply (initial hd (by omega)).bind
  intro default y _ _ hv
  obtain ⟨hrow, hle, hlt⟩ := optional hv h
  exact .pure (.node (hh.append hrow (by omega)) (by omega))

theorem parameters (hd : d.Placing levels) (hr : 2 * s.stop ≤ room + 2 * s.index) :
    PutsAll levels room (parameters d) s := by
  refine Run.expect.bind fun _ t _ _ h => ?_
  refine (closedList fun u _ _ => parameter hd (by omega)).bind fun r v _ _ hrow => ?_
  obtain ⟨-, h⟩ := h
  exact .pure (hrow.1.mono (by omega) (by omega))

theorem returnType : PutsAny levels room returnType s := by
  refine .accept (fun t _ ht => ?_) (.pure (.nil (Nat.le_refl _)))
  exact typeHint.bind fun hint u _ _ hh => .pure (hh.2.row.mono (by omega) (Nat.le_refl _))

theorem captures : PutsAll levels room captures s := by
  refine .accept (fun t _ ht => Run.expect.bind fun _ u _ _ h => ?_) (.pure (.nil (Nat.le_refl _)))
  have capture (v : Input) : Puts levels room capture v :=
    .skip fun _ w _ _ => variable_.mono fun _ _ _ _ h => h.mono (by omega) (Nat.le_refl _)
  refine (closedList fun v _ _ => capture v).bind fun r v _ _ hrow => ?_
  exact .pure (hrow.1.mono (by omega) (by omega))

theorem closure (hd : d.Placing levels) (hr : 2 * s.stop ≤ room + 2 * s.index) :
    Puts levels room (closure d) s := by
  refine .here (.skip fun _ t _ _ => Run.expect.bind fun _ u _ _ _ => .skip fun _ v _ _ => ?_)
  apply (parameters hd (by omega)).bind
  intro parameters w _ _ hp
  refine captures.bind fun captured x _ _ hc => returnType.bind fun result y _ _ ht => ?_
  refine (block hd (by omega)).bind fun body z _ _ hb => ?_
  have hrow := ((hp.append hc (Nat.le_refl _)).append ht (Nat.le_refl _)).append hb.tight.row
    (Nat.le_refl _)
  have hbounds := hb.bounds
  exact .pure (.node hrow (by omega))

theorem function (hd : d.Placing levels) (hr : 2 * s.stop ≤ room + 2 * s.index) :
    Puts levels room (function d) s := by
  refine Run.expect.bind fun first t _ _ h => .skip fun _ u _ _ => Run.expect.bind fun _ v _ _ _ => ?_
  obtain ⟨rfl, h⟩ := h
  apply (parameters hd (by omega)).bind
  intro parameters w _ _ hp
  refine returnType.bind fun result x _ _ ht => (block hd (by omega)).bind fun body y _ _ hb => ?_
  have hrow := (hp.append ht (Nat.le_refl _)).append hb.tight.row (Nat.le_refl _)
  have hbounds := hb.bounds
  exact .pure (.documented hrow (by omega))

-- The modifiers of a method stand in front of `s`, from token `first` on.
theorem method (hd : d.Placing levels) (hr : 2 * s.stop ≤ room + 2 * s.index) {first : Nat}
    (hf : first ≤ s.index) (found : Modifiers) :
    Run levels room (method d first found) s fun m t => Sits first t.index m := by
  refine Run.expect.bind fun _ t _ _ h => .skip fun _ u _ _ => anyName.bind fun name v _ _ _ => ?_
  obtain ⟨-, h⟩ := h
  apply (parameters hd (by omega)).bind
  intro parameters w _ _ hp
  refine returnType.bind fun result x _ _ ht => .ahead fun _ => .ite ?_ ?_
  · apply (block hd (by omega)).bind
    intro body y _ _ hb
    have hrow := (hp.append ht (Nat.le_refl _)).append hb.tight.row (Nat.le_refl _)
    have hbounds := hb.bounds
    exact .pure (.documented hrow (by omega))
  · refine Run.terminator.bind fun last y _ _ hl => ?_
    obtain ⟨rfl, hl⟩ := hl
    exact .pure (.documented (hp.append ht (Nat.le_refl _)) (by omega))

-- Expressions, from their smallest parts on.

theorem parenthesized (hd : d.Placing levels) (hr : 2 * s.stop ≤ room + 2 * s.index) :
    Puts levels room (parenthesized d) s := by
  apply Run.expect.bind
  intro _ t _ _ h
  obtain ⟨-, h⟩ := h
  refine (deeper_expression hd (by omega)).bind fun inner u _ _ hi => Run.expect.bind fun _ v _ _ _ => ?_
  exact .pure (hi.mono (by omega) (by omega))

theorem arguments (hd : d.Placing levels) (hr : 2 * s.stop ≤ room + 2 * s.index) :
    Puts levels room (arguments d) s := by
  apply Run.expect.bind
  intro first t _ _ h
  obtain ⟨rfl, h⟩ := h
  have argument (u : Input) (hr : 2 * u.stop + 1 ≤ room + 2 * u.index) :
      Puts levels room (argument d) u :=
    .skip fun _ v _ _ => (deeper_expression hd (by omega)).mono fun _ _ _ _ h =>
      h.mono (by omega) (Nat.le_refl _)
  refine (closedList fun u _ _ => argument u (by omega)).bind fun r v _ _ hrow => ?_
  exact .pure (.node hrow.1 (by omega))

theorem arrayElement (hd : d.Placing levels) (hr : 2 * s.stop + 1 ≤ room + 2 * s.index) :
    Puts levels room (arrayElement d) s := by
  refine .here (.skip fun _ t _ _ => .skip fun _ u _ _ => ?_)
  apply (deeper_expression hd (by omega)).bind
  intro head v _ _ hh
  have hb := hh.bounds
  refine .accept (fun w _ hw => .skip fun _ x _ _ => ?_) (.pure (.node hh.tight.row (by omega)))
  refine (deeper_expression hd (by omega)).bind fun value y _ _ hv => ?_
  have hb' := hv.bounds
  exact .pure (.node (hh.row.append hv.tight.row (by omega)) (by omega))

theorem arrayRest (hd : d.Placing levels) (hr : 2 * s.stop + 1 ≤ room + 2 * s.index)
    {first : Nat} (hf : first < s.index) (close : Symbol) :
    Run levels room (arrayRest d first close) s fun a t => Sits first t.index a := by
  refine (closedList fun u _ _ => arrayElement hd (by omega)).bind fun r t _ _ hrow => ?_
  have hle := hrow.1.le
  exact .pure (.node hrow.1 (by omega))

theorem allocation (hd : d.Placing levels) (hr : 2 * s.stop ≤ room + 2 * s.index) :
    Puts levels room (allocation d) s := by
  refine Run.expect.bind fun first t _ _ h => classReference.bind fun type u _ _ ht => ?_
  obtain ⟨rfl, h⟩ := h
  have hb := ht.bounds
  refine .ahead fun _ => .ite ?_ (.pure (.node ht.tight.row (by omega)))
  apply (arguments hd (by omega)).bind
  intro arguments v _ _ ha
  have hb' := ha.bounds
  exact .pure (.node (ht.row.append ha.tight.row (by omega)) (by omega))

theorem primary (hd : d.Placing levels) (hr : 2 * s.stop ≤ room + 2 * s.index) :
    Puts levels room (primary d) s := by
  have word {kind : NodeKind} : Puts levels room (do return Draft.leaf kind (← next)) s :=
    Run.next.bind fun _ _ _ _ h => .pure (leaf h)
  have name : Puts levels room (do return (← Parser.qualifiedName).node .identifier) s :=
    qualifiedName.bind fun _ _ _ _ h => .pure (nameNode h)
  refine .ahead fun kind => ?_
  cases kind with
  | none => exact .atEnd
  | some kind =>
      dsimp only
      split
      · exact word
      split
      · exact word
      · exact parenthesized hd hr
      · apply Run.next.bind
        intro first t _ _ h
        obtain ⟨rfl, h⟩ := h
        exact arrayRest hd (by omega) (by omega) _
      · refine .ahead fun _ => .ite (Run.next.bind fun first t _ _ h => ?_) (.unexpected _)
        obtain ⟨rfl, h⟩ := h
        exact Run.next.bind fun _ u _ _ h' => arrayRest hd (by omega) (by omega) _
      · exact allocation hd hr
      · exact closure hd hr
      · exact .ahead fun _ => .ite (closure hd hr) word
      · exact name
      · exact name
      · exact name
      · exact .unexpected _

theorem memberName (hd : d.Placing levels) (hr : 2 * s.stop ≤ room + 2 * s.index) :
    Puts levels room (memberName d) s := by
  refine .ahead fun kind => ?_
  split
  · exact Run.next.bind fun _ _ _ _ h => .pure (leaf h)
  · apply Run.next.bind
    intro _ t _ _ h
    obtain ⟨-, h⟩ := h
    refine (deeper_expression hd (by omega)).bind fun inner u _ _ hi => ?_
    exact Run.expect.bind fun _ v _ _ _ => .pure (hi.mono (by omega) (by omega))
  · exact anyName.bind fun _ _ _ _ h => .pure (leaf h)

-- What was read so far stands in front of `s`, from token `lo` on; here is what may follow it.
section Continued

variable {lo : Nat} {base : Draft}

theorem access (hd : d.Placing levels) (hr : 2 * s.stop ≤ room + 2 * s.index)
    (hbase : Sits lo s.index base) (kind : NodeKind) :
    Run levels room (access d kind base) s fun a t => Sits lo t.index a := by
  refine Run.next.bind fun _ t _ _ _ => (memberName hd (by omega)).bind fun member u _ _ hm => ?_
  have hb := hbase.bounds
  have hb' := hm.bounds
  exact .pure (.node (hbase.self.row.append hm.tight.row (by omega)) (by omega))

theorem indexed (hd : d.Placing levels) (hr : 2 * s.stop ≤ room + 2 * s.index)
    (hbase : Sits lo s.index base) :
    Run levels room (indexed d base) s fun a t => Sits lo t.index a := by
  have hb := hbase.bounds
  refine Run.next.bind fun _ t _ _ h => .accept (fun u _ hu => ?_) ?_
  · exact .pure (.node hbase.self.row (by omega))
  · obtain ⟨-, h⟩ := h
    apply (deeper_expression hd (by omega)).bind
    intro key u _ _ hk
    apply Run.expect.bind
    intro last v _ _ hl
    obtain ⟨rfl, hl⟩ := hl
    exact .pure (.node (hbase.self.row.append hk.row (by omega)) (by omega))

theorem call (hd : d.Placing levels) (hr : 2 * s.stop ≤ room + 2 * s.index)
    (hbase : Sits lo s.index base) :
    Run levels room (call d base) s fun a t => Sits lo t.index a := by
  apply (arguments hd hr).bind
  intro arguments t _ _ ha
  have hb := hbase.bounds
  have hb' := ha.bounds
  exact .pure (.node (hbase.self.row.append ha.tight.row (by omega)) (by omega))

theorem postfixRound (hd : d.Placing levels) (hr : 2 * s.stop ≤ room + 2 * s.index)
    (hbase : Sits lo s.index base) :
    Run levels room (postfixRound d base) s fun
      | .again a, t => Sits lo t.index a
      | .done a, t => Sits lo t.index a := by
  have hb := hbase.bounds
  refine .ahead fun kind => ?_
  split
  · exact (call hd hr hbase).bind fun _ _ _ _ h => .pure h
  · exact (access hd hr hbase _).bind fun _ _ _ _ h => .pure h
  · exact (access hd hr hbase _).bind fun _ _ _ _ h => .pure h
  · exact (indexed hd hr hbase).bind fun _ _ _ _ h => .pure h
  iterate 2
    apply Run.next.bind
    intro operator t _ _ h
    obtain ⟨rfl, h⟩ := h
    exact .pure (Sits.node hbase.self.row (by omega))
  · exact .pure hbase

end Continued

theorem postfixed (hd : d.Placing levels) (hr : 2 * s.stop ≤ room + 2 * s.index) :
    Puts levels room (postfixed d) s := by
  apply (primary hd hr).bind
  intro first t _ _ h
  exact .iterate (fun base u => Sits s.index u.index base) h fun base u _ _ hbase =>
    (postfixRound hd (by omega) hbase).mono fun r _ _ _ hq => by cases r <;> exact hq

theorem power (hd : d.Placing levels) (hr : 2 * s.stop ≤ room + 2 * s.index) :
    Puts levels room (power d) s := by
  refine (postfixed hd hr).bind fun base t _ _ hbase => .accept (fun u _ hu => ?_) (.pure hbase)
  have hb := hbase.bounds
  exact (hd .unary u room (by simp only [Goal.need]; omega)).bind fun exponent v _ _ he =>
    .pure (hbase.joining he (by omega))

theorem prefixed {operand : Parser Draft} (kind : NodeKind) (image : Nat → Image)
    (h : ∀ t, t.index = s.index + 1 → t.stop = s.stop → Puts levels room operand t) :
    Puts levels room (prefixed kind image operand) s := by
  apply Run.next.bind
  intro operator t _ hstop ht
  obtain ⟨rfl, ht⟩ := ht
  refine (h t ht hstop).bind fun inner u _ _ hi => ?_
  have hb := hi.bounds
  exact .pure (.node hi.tight.row (by omega))

theorem cast (hd : d.Placing levels) (hr : 2 * s.stop ≤ room + 2 * s.index) :
    Puts levels room (cast d) s := by
  apply Run.next.bind
  intro first t _ _ ht
  refine Run.next.bind fun _ u _ _ _ => Run.next.bind fun _ v _ _ _ => ?_
  obtain ⟨rfl, ht⟩ := ht
  apply (hd .unary v room (by simp only [Goal.need]; omega)).bind
  intro inner w _ _ hi
  have hi : Sits v.index w.index inner := hi
  have hb := hi.bounds
  exact .pure (.node hi.tight.row (by omega))

theorem unary (hd : d.Placing levels) (hr : 2 * s.stop ≤ room + 2 * s.index) :
    Puts levels room (unary d) s := by
  have operand (goal : Goal) (hn : goal.need = 1) (t : Input) (ht : t.index = s.index + 1)
      (hstop : t.stop = s.stop) : Run levels room (d goal) t (goal.Placed t) :=
    hd goal t room (by omega)
  refine .ahead fun kind => ?_
  split
  · exact prefixed _ _ (operand _ rfl)
  iterate 6 exact prefixed _ _ (operand .unary rfl)
  iterate 4 exact prefixed _ _ (operand .assigned rfl)
  · exact prefixed _ _ (operand .assigned rfl)
  · exact prefixed _ _ (operand .unary rfl)
  · have looked : Run levels room atCast s fun _ t => t = s :=
      .castAhead fun _ => .ahead fun _ => .pure rfl
    refine looked.bind fun _ t _ _ ht => ?_
    subst ht
    exact .ite (cast hd hr) (power hd hr)
  · exact power hd hr

theorem operandRound (hd : d.Placing levels) (hr : 2 * s.stop ≤ room + 2 * s.index) {lo : Nat}
    {left : Draft} (hleft : Sits lo s.index left) (minimum : Nat) :
    Run levels room (operandRound d minimum left) s fun
      | .again a, t => Sits lo t.index a
      | .done a, t => Sits lo t.index a := by
  refine .ahead fun kind => ?_
  split
  · exact .pure hleft
  · refine .ite (.pure hleft) (Run.next.bind fun operator t _ _ ht => .ite ?_ ?_)
    · exact classReference.bind fun type u _ _ hc => .pure (hleft.joining hc (by omega))
    · obtain ⟨-, ht⟩ := ht
      exact (hd (.operands _) t room (by simp only [Goal.need]; omega)).bind fun right u _ _ hright =>
        .pure (hleft.joining hright (by omega))

theorem operands (hd : d.Placing levels) (hr : 2 * s.stop ≤ room + 2 * s.index) (minimum : Nat) :
    Puts levels room (operands d minimum) s := by
  refine (unary hd hr).bind fun first t _ _ h => ?_
  exact .iterate (fun left u => Sits s.index u.index left) h fun left u _ _ hleft =>
    (operandRound hd (by omega) hleft minimum).mono fun r _ _ _ hq => by cases r <;> exact hq

theorem conditional (hd : d.Placing levels) (hr : 2 * s.stop ≤ room + 2 * s.index) :
    Puts levels room (conditional d) s := by
  refine (operands hd hr 0).bind fun condition t _ _ hc => .accept (fun u _ hu => ?_) (.pure hc)
  have hb := hc.bounds
  exact (hd (.branches _ condition) u room (by simp only [Goal.need]; omega)).mono
    fun r v _ _ hq => hq _ (hc.mono (Nat.le_refl _) (by omega))

theorem assignment (hd : d.Placing levels) (hr : 2 * s.stop ≤ room + 2 * s.index) :
    Puts levels room (assignment d) s := by
  refine (conditional hd hr).bind fun left t _ _ hleft => .ahead fun kind => ?_
  have hb := hleft.bounds
  have mark (kind : TokenKind) (u : Input) : Run levels room (referenceMark kind) u fun _ _ => True :=
    .ite (Run.ahead fun _ => .ite (Run.next.bind fun _ _ _ _ _ => .pure trivial) (.pure trivial))
      (.pure trivial)
  cases kind with
  | none => exact .pure hleft
  | some kind =>
      refine .ite (Run.next.bind fun operator u _ _ hu => ?_) (.pure hleft)
      obtain ⟨-, hu⟩ := hu
      refine (mark kind u).bind fun _ v _ _ _ => ?_
      exact (hd .assigned v room (by simp only [Goal.need]; omega)).bind fun right w _ _ hright =>
        .pure (hleft.joining hright (by omega))

theorem branches (hd : d.Placing levels) (hr : 2 * s.stop ≤ room + 2 * s.index) (question : Nat)
    (condition : Draft) : Run levels room (branches d question condition) s
      (Goal.Placed s (.branches question condition)) := by
  refine .accept (fun t _ ht => ?_) ?_
  · refine (assignment hd (by omega)).bind fun otherwise u _ _ ho => .pure fun lo hc => ?_
    have hb := hc.bounds
    have hb' := ho.bounds
    exact .node (hc.self.row.append ho.tight.row (by omega)) (by omega)
  · refine (assignment hd hr).bind fun chosen t _ _ h => Run.expect.bind fun _ u _ _ _ => ?_
    refine (assignment hd (by omega)).bind fun otherwise v _ _ ho => .pure fun lo hc => ?_
    have hb := hc.bounds
    have hb' := ho.bounds
    exact .node (hc.self.row.append (h.row.append ho.tight.row (by omega)) (by omega)) (by omega)

theorem joined {operand : Parser Draft} (operator : Keyword)
    (h : ∀ t, s.index ≤ t.index → t.stop = s.stop → Puts levels room operand t) :
    Puts levels room (joined operator operand) s := by
  apply (h s (Nat.le_refl _) rfl).bind
  intro first t _ _ hfirst
  refine .iterate (fun left u => Sits s.index u.index left) hfirst fun left u _ _ hleft => ?_
  refine .accept (fun v _ _ => ?_) (.pure hleft)
  have hb := hleft.bounds
  exact (h v (by omega) (by omega)).bind fun right w _ _ hright =>
    .pure (hleft.joining hright (by omega))

theorem expression (hd : d.Placing levels) (hr : 2 * s.stop ≤ room + 2 * s.index) :
    Puts levels room (expression d) s :=
  joined _ fun t _ _ => joined _ fun u _ _ => assignment hd (by omega)

-- Members and the declarations around them.

theorem importClause : Puts levels room importClause s := by
  refine qualifiedName.bind fun target t _ _ h => .accept (fun u _ hu => ?_) ?_
  · refine Run.expect.bind fun short v _ _ hv => ?_
    have hs : Sits u.index v.index (.leaf .identifier short) := leaf hv
    obtain ⟨rfl, hv⟩ := hv
    exact .pure (.node hs.row (by omega))
  · exact .pure (.node (.nil (Nat.le_refl s.index)) (by omega))

theorem useDeclarations : Run levels room useDeclarations s fun ds t =>
    Row [] s.index t.index ds ∧ ds ≠ [] := by
  have kinds (t : Input) : Run levels room importKind t fun _ _ => True := by
    refine .ahead fun kind => ?_
    split
    · exact Run.next.bind fun _ _ _ _ _ => .pure trivial
    · exact Run.next.bind fun _ _ _ _ _ => .pure trivial
    · exact .pure trivial
  refine Run.expect.bind fun _ t _ _ _ => (kinds t).bind fun _ u _ _ _ => ?_
  refine (commaList fun v _ _ => importClause).bind fun clauses v _ _ h => ?_
  exact Run.terminator.bind fun _ w _ _ _ => .pure ⟨h.1.mono (by omega) (by omega), h.2⟩

-- The rows of a list of names that begins at token `first`. What is asked of an item depends on
-- whether other items stand in front of it.
theorem namedList {item : Option Nat → Parser Draft} {first : Nat} (hf : first ≤ s.index)
    (I : List Draft → Prop) (hI : I [])
    (head : Run levels room (item (some first)) s fun d u => I [d] ∧ Sits first u.index d)
    (tail : ∀ e rest t, s.index ≤ t.index → t.stop = s.stop → I (e :: rest) →
      Run levels room (item none) t fun d u =>
        I (e :: rest ++ [d]) ∧ Row (e :: rest) t.index u.index [d]) :
    Run levels room (namedList first item) s fun ds t => Row [] first t.index ds ∧ ds ≠ [] := by
  have loop : Run levels room (namedItems first item) s fun ds t =>
      Row [] first t.index ds ∧ ds ≠ [] := by
    refine .iterate (fun items t => I items ∧ Row [] first t.index items ∧ (items = [] → t = s))
      ⟨hI, .nil hf, fun _ => rfl⟩ fun items t hle hstop hi => ?_
    have hitem : Run levels room (item (if items.isEmpty then some first else none)) t fun d u =>
        I (items ++ [d]) ∧ Row [] first u.index (items ++ [d]) := by
      cases items with
      | nil =>
          rw [hi.2.2 rfl]
          exact head
      | cons e rest =>
          exact (tail e rest t hle hstop hi.1).mono fun d u _ _ hd =>
            ⟨hd.1, hi.2.1.append_of hd.2⟩
    refine hitem.bind fun d u _ _ hd => ?_
    exact .accept (fun v _ _ => .pure ⟨hd.1, hd.2.mono (Nat.le_refl _) (by omega), by simp⟩)
      (.pure ⟨hd.2, by simp⟩)
  exact loop.bind fun ds t _ _ h => Run.terminator.bind fun _ u _ _ _ =>
    .pure ⟨h.1.mono (Nat.le_refl _) (by omega), h.2⟩

-- A name of a list begins in front of its parts.
theorem named {kind : NodeKind} {found : Modifiers} {lead : Option Nat} {lo hi name last a b : Nat}
    {parts : List Draft} (inner : Row [] a b parts)
    (h : lo ≤ lead.getD name ∧ lead.getD name < a ∧ b ≤ last + 1 ∧ lead.getD name ≤ last ∧ last < hi) :
    Sits lo hi (Parser.named kind found lead name last parts) := by
  cases lead with
  | none => exact .node inner ⟨h.1, Nat.le_of_lt h.2.1, h.2.2⟩
  | some first => exact .documented inner h

theorem constants (hd : d.Placing levels) (hr : 2 * s.stop ≤ room + 2 * s.index) {first : Nat}
    (hf : first ≤ s.index) :
    Run levels room (constants d first) s fun ds t => Row [] first t.index ds ∧ ds ≠ [] := by
  have value (lead : Option Nat) (t : Input) (hr : 2 * t.stop ≤ room + 2 * t.index)
      (hlead : lead.getD t.index ≤ t.index) :
      Run levels room (constant d lead) t fun c u => Sits (lead.getD t.index) u.index c := by
    refine anyName.bind fun name u _ _ hn => Run.expect.bind fun _ v _ _ _ => ?_
    obtain ⟨rfl, hn⟩ := hn
    apply (deeper_expression hd (by omega)).bind
    intro value w _ _ hv
    have hb := hv.bounds
    exact .pure (named hv.tight.row (by omega))
  refine namedList hf (fun _ => True) trivial ?_ fun e rest t _ _ _ => ?_
  · exact (value (some first) s hr hf).mono fun _ _ _ _ h => ⟨trivial, h⟩
  · exact (value none t (by omega) (Nat.le_refl _)).mono fun _ _ _ _ h =>
      ⟨trivial, by simpa using h.row.behind (e :: rest)⟩

-- The properties so far all show the type, and the first of them lies around it.
def Share (hint : Option Draft) (items : List Draft) : Prop :=
  ∀ h ∈ hint, ∀ e rest, items = e :: rest →
    e.first ≤ h.first ∧ h.last ≤ e.last ∧ ∀ d ∈ items, h.Typed d

theorem Share.append {hint : Option Draft} {e d : Draft} {rest : List Draft}
    (h : Share hint (e :: rest)) (hd : ∀ h ∈ hint, h.Typed d) : Share hint (e :: rest ++ [d]) := by
  intro type htype front behind heq
  obtain ⟨hfirst, hlast, htyped⟩ := h type htype e rest rfl
  obtain ⟨rfl, -⟩ := List.cons.inj heq
  refine ⟨hfirst, hlast, fun x hx => ?_⟩
  rcases List.mem_append.1 hx with hx | hx
  · exact htyped x hx
  · rw [List.mem_singleton.1 hx]
    exact hd type htype

-- The type of a declaration stands behind `first` and in front of `s`. The first property holds it.
theorem property_first (hd : d.Placing levels) (hr : 2 * s.stop ≤ room + 2 * s.index) {first : Nat}
    (hf : first ≤ s.index) (found : Modifiers) {hint : Option Draft}
    (hh : ∀ h ∈ hint, h.label.kind = .typeHint ∧ Sits (first + 1) s.index h) :
    Run levels room (property d found hint (some first)) s fun p t =>
      Share hint [p] ∧ Sits first t.index p := by
  apply Run.expect.bind
  intro name t _ _ hn
  obtain ⟨rfl, hn⟩ := hn
  apply (initial hd (by omega)).bind
  intro value u _ _ hv
  obtain ⟨hrow, hle, hlt⟩ := optional hv hn
  cases hint with
  | none => exact .pure ⟨nofun, named hrow (by simp only [Option.getD_some]; omega)⟩
  | some h =>
      obtain ⟨-, hs⟩ := hh h rfl
      have hb := hs.bounds
      refine .pure ⟨?_, named (hs.row.append hrow (by omega))
        (by simp only [Option.getD_some]; omega)⟩
      rintro h' ⟨⟩ e rest ⟨rfl, rfl⟩
      refine ⟨Nat.le_of_succ_le hb.1, ?_, ?_⟩
      · change h.last ≤ (value.map Draft.last).getD s.index
        omega
      · simp only [List.mem_singleton, forall_eq]
        exact ⟨rfl, _, rfl⟩

-- A later property repeats the type that the first one `e` holds.
theorem property_later (hd : d.Placing levels) (hr : 2 * s.stop ≤ room + 2 * s.index)
    (found : Modifiers) {hint : Option Draft} {lo : Nat}
    (hh : ∀ h ∈ hint, h.label.kind = .typeHint ∧ Sits lo s.index h) {e : Draft} {rest : List Draft}
    (hi : Share hint (e :: rest)) :
    Run levels room (property d found hint none) s fun p t =>
      Share hint (e :: rest ++ [p]) ∧ Row (e :: rest) s.index t.index [p] := by
  apply Run.expect.bind
  intro name t _ _ hn
  obtain ⟨rfl, hn⟩ := hn
  refine (initial hd (by omega)).bind fun value u _ _ hv => ?_
  obtain ⟨hrow, hle, hlt⟩ := optional hv hn
  have hinner : Row [] s.index ((value.map Draft.last).getD s.index + 1) value.toList :=
    hrow.mono (by omega) (Nat.le_refl _)
  cases hint with
  | none => exact .pure ⟨nofun, .cons (Nat.le_refl _) hle hinner (.nil hlt)⟩
  | some h =>
      obtain ⟨hk, hs⟩ := hh h rfl
      have hb := hs.bounds
      obtain ⟨hfirst, hlast, htyped⟩ := hi h rfl e rest rfl
      refine .pure ⟨hi.append ?_, ?_⟩
      · rintro h' ⟨⟩
        exact ⟨rfl, _, rfl⟩
      · exact .lent (Nat.le_refl _) hle
          ⟨rfl, hk, by simp only [Option.getD_none]; omega, [], e, rest, rfl, htyped, hfirst, hlast⟩
          hs.self.row hinner (.nil hlt)

theorem properties (hd : d.Placing levels) (hr : 2 * s.stop ≤ room + 2 * s.index) {first : Nat}
    (hf : first ≤ s.index) (found : Modifiers) {hint : Option Draft}
    (hh : ∀ h ∈ hint, h.label.kind = .typeHint ∧ Sits (first + 1) s.index h) :
    Run levels room (properties d first found hint) s fun ds t => Row [] first t.index ds := by
  refine (namedList hf (Share hint) nofun ?_ fun e rest t hle hstop hi => ?_).mono
    fun _ _ _ _ h => h.1
  · exact property_first hd hr hf found hh
  · have repeated : ∀ h ∈ hint, h.label.kind = .typeHint ∧ Sits (first + 1) t.index h :=
      fun h hm => ⟨(hh h hm).1, (hh h hm).2.mono (Nat.le_refl _) hle⟩
    exact property_later hd (by omega) found repeated hi

theorem member (hd : d.Placing levels) (hr : 2 * s.stop ≤ room + 2 * s.index) :
    PutsAll levels room (member d) s := by
  refine .here (.ahead fun _ => .ite (useDeclarations.mono fun _ _ _ _ h => h.1) ?_)
  refine modifiers.bind fun found t _ _ hfound => .ahead fun kind => ?_
  -- a type is behind modifiers, or it is refused
  have typed : Run levels room (do
      if found.isEmpty then Parser.unexpected .classMember
      else
        let hint ← Parser.typeHint
        Parser.properties d s.index found (some hint)) t fun ds u => Row [] s.index u.index ds := by
    cases hempty : found.isEmpty with
    | true => exact .unexpected _
    | false =>
        have hlt := hfound hempty
        apply typeHint.bind
        intro hint u _ _ hh
        apply properties hd (by omega) (by omega) found
        intro h hm
        obtain rfl := Option.some.inj hm
        exact ⟨hh.1, hh.2.mono (by omega) (Nat.le_refl _)⟩
  split
  · refine Run.next.bind fun _ u _ _ _ => (constants hd (by omega) (by omega)).mono ?_
    exact fun _ _ _ _ h => h.1
  · exact (method hd (by omega) (by omega) found).bind fun m u _ _ hm => .pure hm.row
  · exact .ite (.unexpected _) (properties hd (by omega) (by omega) found (by simp))
  iterate 4 exact typed
  · exact .unexpected _

theorem members (hd : d.Placing levels) (hr : 2 * s.stop ≤ room + 2 * s.index) :
    PutsUpTo levels room (members d) s := by
  apply Run.expect.bind
  intro _ t _ _ ht
  obtain ⟨-, ht⟩ := ht
  have items : PutsUpTo levels room (Parser.through .rightBrace (d .member)) t :=
    through fun u _ _ => hd .member u room (by simp only [Goal.need]; omega)
  exact items.mono fun _ _ _ _ h => ⟨h.1.mono (by omega) (Nat.le_refl _), h.2⟩

theorem typeReferences (announced : Keyword) (kind : NodeKind) :
    PutsAll levels room (typeReferences announced kind) s := by
  refine .accept (fun t _ ht => ?_) (.pure (.nil (Nat.le_refl _)))
  have item (u : Input) : Puts levels room (Name.node kind <$> Parser.qualifiedName) u :=
    .map (qualifiedName.mono fun _ _ _ _ h => nameNode h)
  exact (commaList fun u _ _ => item u).mono fun _ _ _ _ h => h.1.mono (by omega) (Nat.le_refl _)

theorem classModifiers : Run levels room classModifiers s fun _ _ => True := by
  refine .iterate (fun _ _ => True) trivial fun found t _ _ _ => .ahead fun kind => ?_
  split
  · exact Run.next.bind fun _ _ _ _ _ => .pure trivial
  · exact Run.next.bind fun _ _ _ _ _ => .pure trivial
  · exact .pure trivial

theorem parentClass : PutsAny levels room parentClass s := by
  refine .accept (fun t _ ht => ?_) (.pure (.nil (Nat.le_refl _)))
  exact qualifiedName.bind fun name u _ _ h =>
    .pure ((nameNode h).row.mono (by omega) (Nat.le_refl _))

theorem classDeclaration (hd : d.Placing levels) (hr : 2 * s.stop ≤ room + 2 * s.index) :
    Puts levels room (classDeclaration d) s := by
  refine .here (classModifiers.bind fun _ t _ _ _ => Run.expect.bind fun _ u _ _ hu => ?_)
  obtain ⟨-, hu⟩ := hu
  refine Run.expect.bind fun name v _ _ _ => parentClass.bind fun parent w _ _ hp => ?_
  apply (typeReferences _ _).bind
  intro interfaces x _ _ hi
  refine (members hd (by omega)).bind fun r y _ _ hm => ?_
  have hrow := (hp.append hi (Nat.le_refl _)).append hm.1 (Nat.le_refl _)
  have hle := hm.1.le
  exact .pure (.documented hrow (by omega))

theorem interfaceDeclaration (hd : d.Placing levels) (hr : 2 * s.stop ≤ room + 2 * s.index) :
    Puts levels room (interfaceDeclaration d) s := by
  refine Run.expect.bind fun first t _ _ ht => Run.expect.bind fun name u _ _ _ => ?_
  obtain ⟨rfl, ht⟩ := ht
  apply (typeReferences _ _).bind
  intro parents v _ _ hp
  refine (members hd (by omega)).bind fun r w _ _ hm => ?_
  have hle := hm.1.le
  exact .pure (.documented (hp.append hm.1 (Nat.le_refl _)) (by omega))

theorem traitDeclaration (hd : d.Placing levels) (hr : 2 * s.stop ≤ room + 2 * s.index) :
    Puts levels room (traitDeclaration d) s := by
  refine Run.expect.bind fun first t _ _ ht => Run.expect.bind fun name u _ _ _ => ?_
  obtain ⟨rfl, ht⟩ := ht
  apply (members hd (by omega)).bind
  intro r v _ _ hm
  have hle := hm.1.le
  exact .pure (.documented hm.1 (by omega))

end Census.Grammar.Parser.Puts
