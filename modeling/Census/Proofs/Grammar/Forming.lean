import Census.Proofs.Grammar.Formed
import Census.Proofs.Grammar.Naming

namespace Census.Grammar

open NodeKind (isExpression isStatement isMember isCase isReference only)

variable {ts : List Terminal} {b i : Nat}

-- What is known where a goal begins: of a condition in whose middle the branches of a conditional
-- begin, and of what stands in front of a member.
def Goal.Ready (ts : List Terminal) (b i : Nat) : Goal → Prop
  | .branches question condition =>
      i = question + 1 ∧ kindAt ts question = some (.symbol .question) ∧
        Sound ts (b + 3) isExpression condition
  | .member => Fresh ts i
  | _ => True

-- A statement reaches to the last of its tokens.
structure Ending (ts : List Terminal) (b i j : Nat) (d : Draft) : Prop
    extends Sound ts b isStatement d where
  opened : Opened ts i d.first
  last : d.last + 1 = j
  stop : ∃ kind, kindAt ts d.last = some kind ∧ kind.isStop = true

theorem Ending.stops {j : Nat} {d : Draft} (h : Ending ts b i j d) : Stops ts d.last j :=
  ⟨h.last, h.stop⟩

-- An expression that begins where `base` does.
structure Onward (ts : List Terminal) (b : Nat) (base : Draft) (j : Nat) (d : Draft) : Prop
    extends Sound ts b isExpression d where
  first : d.first = base.first
  closed : Closed ts d.last j

-- What a goal comes to from terminal `i` on, if `j` is the next terminal then.
def Goal.Built (ts : List Terminal) (b i : Nat) : (goal : Goal) → goal.Result → Nat → Prop
  | .statement, r, j => (∀ d, r = some d → Ending ts b i j d) ∧ (r = none → Stops ts i j)
  | .member, r, j => SoundAll ts b isMember r ∧ Fresh ts j
  | .switchCase, r, _ => Sound ts b isCase r
  | .branches _ condition, r, j => Onward ts (b + 4) condition j r
  | .expression, r, j | .assigned, r, j | .operands _, r, j | .unary, r, j =>
      Within ts b isExpression i j r

def Deeper.Forming (ts : List Terminal) (b : Nat) (d : Deeper) : Prop :=
  ∀ goal i, goal.Ready ts b i → Parser.Builds ts (d goal) i (goal.Built ts b i)

namespace Parser.Forming

variable {d : Deeper} {takes : NodeKind → Bool}

section Lists

-- No comma stands in front of an item, as each item ends as a statement does.
theorem through {item : Parser (List Draft)} (hfresh : Fresh ts i)
    (h : ∀ k, Fresh ts k → Builds ts item k fun ds j => SoundAll ts b takes ds ∧ Fresh ts j) :
    Builds ts (through .rightBrace item) i fun r j => SoundAll ts b takes r.1 ∧ Stops ts r.2 j := by
  refine .iterate (fun items k => SoundAll ts b takes items ∧ Fresh ts k) ⟨.nil, hfresh⟩ ?_
  rintro items k ⟨hitems, hk⟩
  refine .accept (fun hclose => .pure ⟨hitems, rfl, _, hclose, rfl⟩) (.here ?_)
  exact (h k hk).bind fun more _ hmore => .pure ⟨hitems.append hmore.1, hmore.2⟩

theorem commaList {item : Parser Draft} (h : ∀ k, Builds ts item k fun d _ => Sound ts b takes d) :
    Builds ts (commaList item) i fun ds _ => SoundAll ts b takes ds ∧ ds ≠ [] := by
  refine .iterate (fun items _ => SoundAll ts b takes items) .nil fun items k hitems => ?_
  refine (h k).bind fun d _ hd => ?_
  have hall : SoundAll ts b takes (items ++ [d]) := hitems.append (.single hd)
  exact .accept (fun _ => .pure hall) (.pure ⟨hall, by simp⟩)

theorem closedList {item : Parser Draft} {close : Symbol}
    (h : ∀ k, Builds ts item k fun d _ => Sound ts b takes d) :
    Builds ts (closedList close item) i fun r j => SoundAll ts b takes r.1 ∧ r.2 + 1 = j := by
  refine Builds.bind (R := fun items _ => SoundAll ts b takes items) ?_ fun items k hitems =>
    .expect fun _ => .pure ⟨hitems, rfl⟩
  refine .iterate (fun items _ => SoundAll ts b takes items) .nil fun items k hitems => ?_
  refine .ahead (.ite (fun _ => .pure hitems) fun _ => (h k).bind fun d _ hd => ?_)
  have hall : SoundAll ts b takes (items ++ [d]) := hitems.append (.single hd)
  exact .accept (fun _ => .pure hall) (.pure hall)

end Lists

-- Names and types.

theorem anyName : Builds ts anyName i fun a j => a = i ∧ j = i + 1 ∧ NameAt ts i := by
  refine .ahead ?_
  cases hkind : kindAt ts (i + 0) with
  | none => exact .unexpected _
  | some kind =>
      exact .ite (fun hname => Builds.took.mono fun _ _ ha => ⟨ha.1, ha.2, kind, hkind, hname⟩)
        fun _ => .unexpected _

theorem identifier {β : Type} {f : Nat → Parser β} {Q : β → Nat → Prop}
    (hf : NameAt ts i → Builds ts (f i) (i + 1) Q) : Builds ts (Parser.identifier >>= f) i Q :=
  .expect fun hkind => hf ⟨_, hkind, rfl⟩

-- A name of all the tokens that were taken for it.
structure Named (ts : List Terminal) (i j : Nat) (name : Name) : Prop where
  first : name.first = i
  last : name.last + 1 = j
  lt : i < j
  tokens : name.tokens = List.range' i (j - i)
  image : name.image.Wordy ts true
  bare : name.bareImage.Wordy ts false

theorem qualifiedName : Builds ts qualifiedName i fun name j => Named ts i j name := by
  rw [qualifiedName_eq]
  refine .here (Builds.accepted.bind fun lead s hs => anyName.bind fun bare k hk => ?_)
  obtain ⟨rfl, rfl, hname⟩ := hk
  have hfront : i ≤ bare ∧ WordsAt ts i bare ∧
      ∀ j, bare ≤ j → lead.toList ++ List.range' bare (j - bare) = List.range' i (j - i) := by
    rcases hs with ⟨hsep, rfl, rfl⟩ | ⟨rfl, rfl⟩
    · refine ⟨Nat.le_succ i, .succ (.single ⟨_, hsep, rfl⟩) hname.word, fun j hj => ?_⟩
      rw [← range'_append_sub (Nat.le_succ i) hj, range'_succ_sub]
      rfl
    · exact ⟨Nat.le_refl _, .single hname.word, fun _ _ => rfl⟩
  obtain ⟨hle, hwords, htokens⟩ := hfront
  -- from `i` to the last token so far there are words only
  refine .iterate (fun last k => last + 1 = k ∧ bare ≤ last ∧ WordsAt ts i last)
    ⟨rfl, Nat.le_refl bare, hwords⟩ fun last k ⟨hlast, hbare, hwords⟩ => ?_
  subst hlast
  refine .ahead (.ahead (.ite (fun hmore => .next (.next (.pure ⟨rfl, by omega, ?_⟩))) fun _ => ?_))
  · obtain ⟨hsep, hname⟩ := Bool.and_eq_true_iff.1 hmore
    obtain ⟨kind, hkind, hname⟩ := (Option.any_eq_true _ _).1 hname
    exact (hwords.succ ⟨_, of_decide_eq_true hsep, rfl⟩).succ (NameAt.word ⟨kind, hkind, hname⟩)
  · have hall : (Name.between i lead bare last).tokens = List.range' i (last + 1 - i) :=
      htokens (last + 1) (Nat.le_succ_of_le hbare)
    refine .pure ⟨rfl, rfl, Nat.lt_succ_of_le (Nat.le_trans hle hbare), hall, ?_, ?_⟩
    · rw [Name.image, hall]
      exact hwords.wordy hle hbare hname nofun
    · exact (hwords.mono hle).wordy (Nat.le_refl bare) hbare hname fun _ => rfl

-- A name as a node of its own.
theorem Named.node {kind : NodeKind} {name : Name} {j : Nat} (h : Named ts i j name)
    (hslots : kind.slots = []) (hmarks : kind.refers = true ∨ kind = .typeHint)
    (hkind : takes kind = true) : Whole ts (b + 1) takes i j (name.node kind) := by
  have himage : name.image = .tokens name.first name.last := by
    rw [Name.image, h.tokens, Image.tokens, h.first, h.last]
  refine ⟨.bare ?_ hslots hkind, h.first, h.last⟩
  rcases hmarks with hrefers | rfl
  · refine .verbatim ⟨himage, ?_, ?_⟩ (fun _ => ?_) ?_
    · rintro rfl
      cases hrefers
    · rintro _ rfl
      cases hrefers
    · change name.image.Wordy ts kind.refers
      rw [hrefers]
      exact h.image
    · cases kind <;> first | rfl | cases hrefers
  · exact .verbatim ⟨himage, nofun, nofun⟩ nofun rfl

theorem variable_ (ht : takes .variableName = true) :
    Builds ts variable_ i fun r j => Whole ts (b + 1) takes i j r :=
  .expect fun hkind => .pure (.leaf (.variable_ hkind) rfl ht)

theorem classReference : Builds ts classReference i fun r j =>
    Whole ts (b + 1) isReference i j r := by
  refine .ahead ?_
  split
  · rename_i hkind
    exact .next (.pure (.leaf (.variable_ hkind) rfl rfl))
  · rename_i hkind
    exact .next (.pure (.leaf (.word ⟨_, hkind, rfl⟩) rfl rfl))
  · exact qualifiedName.bind fun name j hname => .pure (hname.node rfl (.inl rfl) rfl)

theorem modifiers : Builds ts modifiers i fun _ _ => True := by
  refine .iterate (fun _ _ => True) trivial fun found k _ => .ahead ?_
  split
  · exact .pure trivial
  · exact .ahead (.ite (fun _ => .pure trivial) fun _ => .next (.pure trivial))

theorem typeName : Builds ts typeName i fun name j =>
    name.last + 1 = j ∧ i < j ∧ name.tokens = List.range' i (j - i) := by
  have word : Builds ts (do return Name.word (← Parser.next)) i fun name j =>
      name.last + 1 = j ∧ i < j ∧ name.tokens = List.range' i (j - i) :=
    .next (.pure ⟨rfl, Nat.lt_succ_self i, (range'_succ_sub i).symm⟩)
  refine .ahead ?_
  split
  · exact word
  · exact word
  · exact word
  · exact word
  · exact qualifiedName.mono fun _ _ h => ⟨h.last, h.lt, h.tokens⟩

-- A loop that has collected all tokens from `first` on collects those that it takes, too.
theorem typeNames {first : Nat} (hle : first ≤ i) :
    Builds ts (typeNames (List.range' first (i - first))) i fun r j =>
      r.2 + 1 = j ∧ r.1 = List.range' first (j - first) := by
  refine .iterate (fun text k => first ≤ k ∧ text = List.range' first (k - first)) ⟨hle, rfl⟩ ?_
  rintro _ k ⟨hk, rfl⟩
  refine typeName.bind fun name m ⟨hlast, hlt, htokens⟩ => ?_
  have hm : first ≤ m := Nat.le_trans hk (Nat.le_of_lt hlt)
  rw [htokens, range'_append_sub hk (Nat.le_of_lt hlt)]
  refine .accept (fun _ => .pure ⟨Nat.le_succ_of_le hm, ?_⟩) (.pure ⟨hlast, rfl⟩)
  rw [← range'_succ_sub m, range'_append_sub hm (Nat.le_succ m)]

theorem typeHint : Builds ts typeHint i fun r _ => Sound ts (b + 1) (only .typeHint) r := by
  refine .here (Builds.accepted.bind fun question k hk => ?_)
  have hfront : i ≤ k ∧ question.toList = List.range' i (k - i) := by
    rcases hk with ⟨-, rfl, rfl⟩ | ⟨rfl, rfl⟩
    · exact ⟨Nat.le_succ i, (range'_succ_sub i).symm⟩
    · exact ⟨Nat.le_refl _, by rw [Nat.sub_self]; rfl⟩
  obtain ⟨hle, htokens⟩ := hfront
  rw [htokens]
  refine (typeNames hle).bind fun r j hr => .pure ?_
  obtain ⟨hlast, htext⟩ := hr
  refine .bare (.verbatim ⟨?_, nofun, nofun⟩ nofun rfl) rfl rfl
  change Image.pieces r.1 = .tokens i r.2
  rw [htext, Image.tokens, hlast]

theorem returnType : Builds ts returnType i fun o _ =>
    SoundAll ts (b + 1) (only .typeHint) o.toList :=
  .accept (fun _ => typeHint.bind fun _ _ hhint => .pure (.single hhint)) (.pure .nil)

theorem parameterHint : Builds ts parameterHint i fun o _ =>
    SoundAll ts (b + 1) (only .typeHint) o.toList := by
  refine .ahead ?_
  split
  · exact .pure .nil
  · exact .pure .nil
  · exact .pure .nil
  · exact typeHint.bind fun _ _ hhint => .pure (.single hhint)

theorem captures : Builds ts captures i fun ds _ => SoundAll ts (b + 1) (only .variableName) ds := by
  have capture (k : Nat) : Builds ts capture k fun r _ => Sound ts (b + 1) (only .variableName) r :=
    .skip fun _ _ => (variable_ rfl).mono fun _ _ h => h.toSound
  refine .accept (fun _ => .expect fun _ => ?_) (.pure .nil)
  exact (closedList capture).bind fun _ _ hr => .pure hr.1

-- Functions and their parts.

section Goals

variable (hd : d.Forming ts b)
include hd

theorem deeper_expression : Builds ts (d .expression) i fun r j =>
    Within ts b isExpression i j r := hd .expression i trivial

theorem deeper_statement : Builds ts (d .statement) i fun r j =>
    (∀ e, r = some e → Ending ts b i j e) ∧ (r = none → Stops ts i j) := hd .statement i trivial

theorem expressions : Builds ts (d .expression) i fun r _ => Sound ts b isExpression r :=
  (deeper_expression hd).mono fun _ _ h => h.toSound

theorem statements : Builds ts (Option.toList <$> d .statement) i fun ds j =>
    SoundAll ts b isStatement ds ∧ Fresh ts j := by
  refine .map ((deeper_statement hd).mono fun r _ hr => ?_)
  cases r with
  | none => exact ⟨.nil, (hr.2 rfl).fresh⟩
  | some e => exact ⟨.single (hr.1 e rfl).toSound, (hr.1 e rfl).stops.fresh⟩

theorem block : Builds ts (block d) i fun r j => Ended ts (b + 1) (only .block) i j r :=
  .expect fun hopen => (through (.behind hopen nofun) fun _ _ => statements hd).bind fun _ _ hr =>
    .pure ⟨.plain rfl (Fills.many hr.1 .nil).last rfl, rfl, hr.2⟩

theorem initial : Builds ts (initial d) i fun o _ => SoundAll ts b isExpression o.toList :=
  .accept (fun _ => (expressions hd).bind fun _ _ hvalue => .pure (.single hvalue)) (.pure .nil)

theorem parameter : Builds ts (parameter d) i fun r _ => Sound ts (b + 2) (only .parameter) r := by
  refine .here (modifiers.bind fun _ _ _ => (parameterHint (b := b)).bind fun hint _ hhint => ?_)
  refine .skip fun _ _ => .skip fun _ _ => .expect fun _ => (initial hd).bind fun value _ hvalue => ?_
  exact .pure (.plain rfl (.optional hhint (.last (.optional (hvalue.mono (Nat.le_succ b)) .nil))) rfl)

theorem parameters : Builds ts (parameters d) i fun ds _ =>
    SoundAll ts (b + 2) (only .parameter) ds :=
  .expect fun _ => (closedList fun _ => parameter hd).bind fun _ _ hr => .pure hr.1

theorem closure : Builds ts (closure d) i fun r j => Whole ts (b + 3) isExpression i j r := by
  refine .here (.skip fun _ _ => .expect fun _ => .skip fun _ _ => ?_)
  refine (parameters hd).bind fun ps _ hps => (captures (b := b)).bind fun cs _ hcs => ?_
  refine (returnType (b := b)).bind fun result _ hresult => (block hd).bind fun body _ hbody => ?_
  have hfills : Fills ts (b + 2) NodeKind.closure.slots (ps ++ (cs ++ (result.toList ++ [body]))) :=
    .many hps (.many (hcs.mono (Nat.le_succ _)) (.optional (hresult.mono (Nat.le_succ _))
      (.one (hbody.toSound.mono (Nat.le_succ _)) .nil)))
  refine .pure ⟨.plain rfl ?_ rfl, rfl, hbody.stops.next⟩
  simpa only [List.append_assoc] using hfills

theorem function : Builds ts (function d) i fun r j =>
    Ended ts (b + 3) (only .functionDecl) i j r := by
  refine .expect fun _ => .skip fun _ _ => identifier fun hname => (parameters hd).bind fun ps _ hps => ?_
  refine (returnType (b := b)).bind fun result _ hresult => (block hd).bind fun body _ hbody => ?_
  have hfills : Fills ts (b + 2) NodeKind.functionDecl.slots (ps ++ (result.toList ++ [body])) :=
    .many hps (.optional (hresult.mono (Nat.le_succ _)) (.one (hbody.toSound.mono (Nat.le_succ _)) .nil))
  refine .pure ⟨.node (.declares (fun _ => hname.wordy) (.always rfl rfl) rfl) ?_ rfl, rfl, hbody.stops⟩
  simpa only [List.append_assoc] using hfills

theorem method (first : Nat) (found : Modifiers) : Builds ts (method d first found) i fun r j =>
    Sound ts (b + 3) (only .method) r ∧ Fresh ts j := by
  refine .expect fun _ => .skip fun _ _ => anyName.bind fun name _ hname => ?_
  obtain ⟨rfl, -, hname⟩ := hname
  refine (parameters hd).bind fun ps _ hps => (returnType (b := b)).bind fun result _ hresult => ?_
  refine .ahead (.ite (fun _ => (block hd).bind fun body _ hbody => ?_) fun _ => ?_)
  · have hfills : Fills ts (b + 2) NodeKind.method.slots (ps ++ (result.toList ++ [body])) :=
      .many hps (.optional (hresult.mono (Nat.le_succ _))
        (.given (hbody.toSound.mono (Nat.le_succ _)) .nil))
    refine .pure ⟨.node (.declares (fun _ => hname.wordy) (.always rfl rfl) rfl) ?_ rfl, hbody.stops.fresh⟩
    simpa only [List.append_assoc] using hfills
  · refine .terminator fun hstops => .pure ⟨?_, hstops.fresh⟩
    refine .node (.declares (fun _ => hname.wordy) (.always rfl rfl) rfl) (.many hps ?_) rfl
    exact (Fills.optional (hresult.mono (Nat.le_succ _)) (.without .nil)).last

end Goals

end Parser.Forming

end Census.Grammar
