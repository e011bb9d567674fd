import Census.Proofs.Operators.Reach
import Census.Proofs.Tree.Subtrees

namespace Census

open Grammar

namespace Script

-- The texts of the tokens from number `i` on are those of the words.
def Spells (script : Script) (i : Nat) (ws : List Word) : Prop :=
  ∀ k w, ws[k]? = some w → script.text (i + k) = w.text

-- The kind and the image of every node.
def form (script : Script) (d : Draft) : Tree (NodeKind × String) :=
  d.map fun o => (o.kind, script.image o.image)

namespace Spells

variable {script : Script} {i : Nat} {w : Word} {ws vs : List Word}

theorem head (h : script.Spells i (w :: ws)) : script.text i = w.text := h 0 w rfl

theorem tail (h : script.Spells i (w :: ws)) : script.Spells (i + 1) ws := by
  intro k v hv
  have hk := h (k + 1) v hv
  rwa [show i + (k + 1) = i + 1 + k by omega] at hk

theorem right (h : script.Spells i (ws ++ vs)) : script.Spells (i + ws.length) vs := by
  intro k v hv
  have hk := h (ws.length + k) v (by rw [List.getElem?_append_right (by omega)]; simpa using hv)
  rwa [← Nat.add_assoc] at hk

end Spells

theorem form_joining (script : Script) (kind : NodeKind) (operator : Nat) (l r : Draft) :
    script.form (.joining kind operator l r) =
      ⟨(kind, script.text operator), [script.form l, script.form r]⟩ := by
  rw [form, Draft.joining, Tree.map_mk, image_token]
  rfl

end Script

namespace Grammar.Parser

-- Where `p` comes to the shape of an expression, right behind the words that the expression has
-- at a place that asks for a level.
def Finds (script : Script) (e : Term) (asked : Nat) (p : Parser Draft) (i : Nat)
    (rest : List Word) : Prop :=
  Yields p (.ofWords i (e.wordsAt asked ++ rest)) fun d t =>
    script.form d = e.shape ∧ t = .ofWords (i + (e.wordsAt asked).length) rest

-- Reads all expressions at places that ask for a level.
def Reads (script : Script) (asked : Nat) (p : Parser Draft) : Prop :=
  ∀ (e : Term) (i : Nat) (rest : List Word), script.Spells i (e.wordsAt asked ++ rest) →
    Ends asked rest → Finds script e asked p i rest

end Grammar.Parser

namespace Grammar

open Grammar.Parser

-- What the goals one level deeper make of expressions.
structure Deeper.ReadsAll (script : Script) (d : Deeper) : Prop where
  expression : Reads script 0 (d .expression)
  assigned : Reads script 2 (d .assigned)
  operands : ∀ minimum, 0 < minimum → minimum ≤ 12 →
    Reads script (3 + minimum) (d (.operands minimum))
  unary : Reads script 15 (d .unary)
  choose : ∀ (c a b : Term) (question : Nat) (condition : Draft) (i : Nat) (rest : List Word),
    script.text question = "?" → script.form condition = c.shape →
    script.Spells i (a.wordsAt 2 ++ .colon :: (b.wordsAt 2 ++ rest)) → Ends 2 rest →
    Yields (d (.branches question condition))
      (.ofWords i (a.wordsAt 2 ++ .colon :: (b.wordsAt 2 ++ rest))) fun d t =>
        script.form d = (Term.choose c a b).shape ∧
          t = .ofWords (i + (a.wordsAt 2).length + 1 + (b.wordsAt 2).length) rest
  fallback : ∀ (c b : Term) (question : Nat) (condition : Draft) (rest : List Word),
    script.text question = "?" → script.form condition = c.shape →
    script.Spells (question + 1) (.colon :: (b.wordsAt 2 ++ rest)) → Ends 2 rest →
    Yields (d (.branches question condition))
      (.ofWords (question + 1) (.colon :: (b.wordsAt 2 ++ rest))) fun d t =>
        script.form d = (Term.fallback c b).shape ∧
          t = .ofWords (question + 2 + (b.wordsAt 2).length) rest

end Grammar

namespace Grammar.Parser.Reads

variable {script : Script} {d : Deeper} {e : Term} {asked i : Nat} {rest : List Word}

theorem parenthesized (hd : d.ReadsAll script) (he : e.level < asked)
    (hs : script.Spells i (e.wordsAt asked ++ rest)) :
    Finds script e asked (parenthesized d) i rest := by
  have hlength : (e.wordsAt asked).length = (e.wordsAt 0).length + 2 := by
    simpa [Nat.add_assoc] using congrArg List.length (Term.wordsAt_of_lt_append he [])
  rw [Finds, hlength]
  rw [Term.wordsAt_of_lt_append he] at hs ⊢
  refine .expect rfl ((hd.expression e (i + 1) _ hs.tail (.cons (Nat.le_refl 0))).bind ?_)
  rintro r t ⟨hr, rfl⟩
  refine .expect rfl (.pure ⟨hr, ?_⟩)
  congr 1
  omega

theorem primary (hd : d.ReadsAll script) (hs : script.Spells i (e.wordsAt 17 ++ rest)) :
    Finds script e 17 (primary d) i rest := by
  rcases Nat.lt_or_ge e.level 17 with he | he
  · have hw : ((e.wordsAt 17 ++ rest)[0]?).map Word.kind = some (.symbol .leftParen) := by
      rw [Term.wordsAt_of_lt he]
      rfl
    refine .ahead 0 ?_
    rw [hw]
    exact parenthesized hd he hs
  · obtain ⟨name, rfl⟩ := Term.eq_named he
    refine .ahead 0 (.next (.pure ⟨?_, rfl⟩))
    rw [Script.form, Draft.leaf, Tree.map_mk, Script.image_token, hs.head]
    rfl

theorem postfixed (hd : d.ReadsAll script) (hs : script.Spells i (e.wordsAt 17 ++ rest))
    (hrest : Ends 17 rest) : Finds script e 17 (postfixed d) i rest := by
  refine (primary hd hs).bind ?_
  rintro r t ⟨hr, rfl⟩
  refine Loops.iterate (Loops.done ?_)
  refine .ahead 0 ?_
  -- All that may stand behind a primary expression as a part of it has the highest reach.
  split
  iterate 6 exact absurd (hrest.lookahead ‹_›) (by decide)
  exact .pure ⟨r, rfl, hr, rfl⟩

-- A base with an exponent, or a single base. A sign is the only thing of this level that is not.
theorem power (hd : d.ReadsAll script) (he : e.level ≠ 15)
    (hs : script.Spells i (e.wordsAt 15 ++ rest)) (hrest : Ends 15 rest) :
    Finds script e 15 (power d) i rest := by
  by_cases hp : e.level = 16
  · obtain ⟨l, r, rfl⟩ := Term.eq_power hp
    rw [Term.wordsAt_power] at hs
    rw [Finds, Term.wordsAt_power]
    simp only [List.append_assoc, List.cons_append, List.length_append, List.length_cons] at hs ⊢
    refine (postfixed hd hs (.cons (by decide))).bind ?_
    rintro base t ⟨hl, rfl⟩
    refine .accepted rfl ((hd.unary r _ rest hs.right.tail hrest).bind ?_)
    rintro exponent t ⟨hr, rfl⟩
    refine .pure ⟨?_, ?_⟩
    · rw [Script.form_joining, hl, hr, hs.right.head]
      rfl
    · congr 1
      omega
  · have hwords : e.wordsAt 17 = e.wordsAt 15 := by
      rw [Term.wordsAt_succ hp, Term.wordsAt_succ he]
    rw [← hwords] at hs
    rw [Finds, ← hwords]
    refine (postfixed hd hs (hrest.mono (by decide))).bind ?_
    rintro r t ⟨hr, rfl⟩
    exact .declined (hrest.ne (by decide)) (.pure ⟨hr, rfl⟩)

-- In front of anything but an operator, a unary expression is a power.
theorem unary_of_power {w : Word} {ws : List Word} {Q : Draft → Input → Prop}
    (hw : w.kind = .variableName ∨ w.kind = .symbol .leftParen)
    (h : Yields (Parser.power d) (.ofWords i (w :: ws)) Q) :
    Yields (unary d) (.ofWords i (w :: ws)) Q := by
  refine .ahead 0 ?_
  simp only [List.getElem?_cons_zero, Option.map_some]
  rcases hw with hw | hw
  · rw [hw]
    exact h
  · rw [hw]
    refine Yields.bind (R := fun b t => b = false ∧ t = .ofWords i (w :: ws)) ?_ ?_
    · exact .castAhead 1 (.ahead 2 (.pure ⟨rfl, rfl⟩))
    · rintro b t ⟨rfl, rfl⟩
      exact h

theorem prefixed {operand : Parser Draft} (ho : Reads script 15 operand) {o : SignOperator}
    {x : Term} (hs : script.Spells i ((Term.sign o x).wordsAt 15 ++ rest)) (hrest : Ends 15 rest) :
    Finds script (.sign o x) 15
      (prefixed .unary (fun operator => .tokens operator operator) operand) i rest := by
  rw [Term.wordsAt_sign] at hs
  rw [Finds, Term.wordsAt_sign]
  refine .next ((ho x _ rest hs.tail hrest).bind ?_)
  rintro r t ⟨hr, rfl⟩
  refine .pure ⟨?_, ?_⟩
  · rw [Script.form, Tree.map_mk, Script.image_token, hs.head, Term.shape, ← hr]
    rfl
  · rw [List.length_cons]
    congr 1
    omega

theorem unary (hd : d.ReadsAll script) : Reads script 15 (unary d) := by
  intro e i rest hs hrest
  by_cases he : e.level = 15
  · obtain ⟨o, x, rfl⟩ := Term.eq_sign he
    have hbang := prefixed (hd.operands 12 (by decide) (by decide)) hs hrest
    have hother := prefixed hd.unary hs hrest
    have hkind : (((Term.sign o x).wordsAt 15 ++ rest)[0]?).map Word.kind =
        some (.symbol o.1.symbol) := by
      rw [Term.wordsAt_sign]
      rfl
    have ho := o.2
    simp only [List.mem_cons, List.not_mem_nil, or_false] at ho
    refine .ahead 0 ?_
    rw [hkind]
    rcases ho with ho | ho | ho | ho | ho
    · rw [ho]
      exact hbang
    iterate 4
      rw [ho]
      exact hother
  · obtain ⟨w, ws, hwords, hw⟩ := Term.wordsAt_unsigned he
    have hpower := power hd he hs hrest
    rw [Finds, hwords] at hpower ⊢
    exact unary_of_power hw hpower

section Operands

variable {minimum : Nat} {Q : Draft → Input → Prop}

-- An expression that is no bare binary operation is one operand, and the loop goes on behind it.
theorem operands_single (hd : d.ReadsAll script) (hasked : asked ≤ 15)
    (he : e.level < asked ∨ 15 ≤ e.level) (hs : script.Spells i (e.wordsAt asked ++ rest))
    (hrest : Ends (e.endAt asked) rest)
    (next : ∀ r, script.form r = e.shape →
      Loops (operandRound d minimum) r (.ofWords (i + (e.wordsAt asked).length) rest) Q) :
    Yields (operands d minimum) (.ofWords i (e.wordsAt asked ++ rest)) Q := by
  have hwords : e.wordsAt 15 = e.wordsAt asked := by
    rcases he with he | he
    · rw [Term.wordsAt_of_lt he, Term.wordsAt_of_lt (Nat.lt_of_lt_of_le he hasked)]
    · rw [Term.wordsAt_of_le he, Term.wordsAt_of_le (Nat.le_trans hasked he)]
  rw [Term.endAt_of_single he] at hrest
  rw [← hwords] at hs next ⊢
  refine (unary hd e i rest hs hrest).bind ?_
  rintro r t ⟨hr, rfl⟩
  exact (next r hr).iterate

-- One round of the loop takes an operator and its right operand.
theorem operandRound (hd : d.ReadsAll script) {o : BinaryOperator} {l r : Term} {left : Draft}
    (hm : 3 + minimum ≤ o.level) (hl : script.form left = l.shape)
    (hs : script.Spells i (.symbol o.spelling :: (r.wordsAt o.rightLevel ++ rest)))
    (hrest : Ends o.rightLevel rest) :
    Yields (operandRound d minimum left)
      (.ofWords i (.symbol o.spelling :: (r.wordsAt o.rightLevel ++ rest))) fun q t =>
        ∃ joined, q = .again joined ∧ script.form joined = (Term.binary o l r).shape ∧
          t = .ofWords (i + 1 + (r.wordsAt o.rightLevel).length) rest := by
  have hlevels := o.levels
  have hright := o.rightLevel_eq
  refine .ahead 0 ?_
  have hbind : Option.bind (some (TokenKind.symbol o.spelling.symbol)) Binding.ofKind? =
    some o.binding := o.binds
  simp only [List.getElem?_cons_zero, Option.map_some, Word.kind, hbind]
  have hprecedence : ¬ o.binding.precedence < minimum := by
    simp only [BinaryOperator.level] at hm
    omega
  refine .ite_neg hprecedence (.next (.ite_neg (by simp) ?_))
  have hoperand := hd.operands o.binding.rightMinimum (by omega) (by omega)
  rw [← hright] at hoperand
  refine (hoperand r (i + 1) rest hs.tail hrest).bind ?_
  rintro right t ⟨hr, rfl⟩
  refine .pure ⟨_, rfl, ?_, rfl⟩
  rw [Script.form_joining, hl, hr, hs.head]
  rfl

-- Operands from left to right: where the loop yields something behind the expression, so does
-- reading the expression first. By induction on the left operands.
theorem operands_then (hd : d.ReadsAll script) (e : Term) (hlow : 4 ≤ asked) (hhigh : asked ≤ 15)
    (hm : 3 + minimum ≤ asked) (hs : script.Spells i (e.wordsAt asked ++ rest))
    (hrest : Ends (e.endAt asked) rest)
    (next : ∀ r, script.form r = e.shape →
      Loops (Parser.operandRound d minimum) r (.ofWords (i + (e.wordsAt asked).length) rest) Q) :
    Yields (operands d minimum) (.ofWords i (e.wordsAt asked ++ rest)) Q := by
  induction e generalizing asked rest with
  | binary o l r ihl _ =>
      have hlevels := o.levels
      rcases Nat.lt_or_ge (Term.binary o l r).level asked with he | he
      · exact operands_single hd hhigh (.inl he) hs hrest next
      · have hend : (Term.binary o l r).endAt asked = o.rightLevel := if_neg (Nat.not_lt.2 he)
        have hlevel : asked ≤ o.level := he
        rw [hend] at hrest
        rw [Term.wordsAt_binary he] at hs next ⊢
        simp only [List.append_assoc, List.cons_append, List.length_append,
          List.length_cons] at hs next ⊢
        refine ihl (by omega) (by omega) (by omega) hs (.cons ?_) fun left hl => Loops.again ?_
        · rw [Word.kind, o.reach_eq]
          exact Term.endAt_leftLevel o l
        · refine (operandRound hd (by omega) hl hs.right hrest).mono ?_
          rintro q t ⟨joined, rfl, hj, rfl⟩
          refine ⟨joined, rfl, ?_, ?_⟩
          · simp only [Input.ofWords, List.length_map, List.length_cons, List.length_append]
            omega
          · have hnext := next joined hj
            rwa [show i + ((l.wordsAt o.leftLevel).length + ((r.wordsAt o.rightLevel).length + 1)) =
              i + (l.wordsAt o.leftLevel).length + 1 + (r.wordsAt o.rightLevel).length by omega]
              at hnext
  | named name => exact operands_single hd hhigh (.inr (by simp only [Term.level]; omega)) hs hrest next
  | sign o x _ => exact operands_single hd hhigh (.inr (by simp only [Term.level]; omega)) hs hrest next
  | power l r _ _ => exact operands_single hd hhigh (.inr (by simp only [Term.level]; omega)) hs hrest next
  | joined j l r _ _ =>
      refine operands_single hd hhigh (.inl ?_) hs hrest next
      cases j <;> simp only [Term.level, Joint.level] <;> omega
  | assign target o value _ =>
      exact operands_single hd hhigh (.inl (by simp only [Term.level]; omega)) hs hrest next
  | choose c a b _ _ _ =>
      exact operands_single hd hhigh (.inl (by simp only [Term.level]; omega)) hs hrest next
  | fallback c b _ _ =>
      exact operands_single hd hhigh (.inl (by simp only [Term.level]; omega)) hs hrest next

-- The loop ends in front of what ends operands of its level.
theorem operands (hd : d.ReadsAll script) (hlow : 4 ≤ asked) (hhigh : asked ≤ 15)
    (hm : asked = 3 + minimum ∨ asked = 4 ∧ minimum = 0) :
    Reads script asked (operands d minimum) := by
  intro e i rest hs hrest
  refine operands_then hd e hlow hhigh (by omega) hs (hrest.mono (Term.le_endAt hhigh e)) ?_
  intro r hr
  refine Loops.done (.ahead 0 ?_)
  cases hbind : ((rest[0]?).map Word.kind).bind Binding.ofKind? with
  | none => exact .pure ⟨r, rfl, hr, rfl⟩
  | some binding =>
      obtain ⟨kind, hkind, hb⟩ := Option.bind_eq_some_iff.1 hbind
      have hreach := TokenKind.reach_of_binding hb
      have hle := hrest.lookahead hkind
      exact .ite_pos (by omega) (.pure ⟨r, rfl, hr, rfl⟩)

end Operands

-- Only a variable stands in front of an assignment operator.
theorem conditional (hd : d.ReadsAll script) (hs : script.Spells i (e.wordsAt 3 ++ rest))
    (hrest : Ends 3 rest) (hassign : e.level = 3 → Ends 2 rest) :
    Finds script e 3 (conditional d) i rest := by
  have hcondition : Reads script 4 (Parser.operands d 0) :=
    operands hd (Nat.le_refl 4) (by decide) (.inr ⟨rfl, rfl⟩)
  by_cases he : e.level = 3
  · obtain ⟨c, a, b, rfl⟩ | ⟨c, b, rfl⟩ := Term.eq_conditional he
    · rw [Term.wordsAt_choose] at hs
      rw [Finds, Term.wordsAt_choose]
      simp only [List.append_assoc, List.cons_append, List.length_append, List.length_cons] at hs ⊢
      refine (hcondition c i _ hs (.cons (by decide))).bind ?_
      rintro condition t ⟨hc, rfl⟩
      refine .accepted rfl ((hd.choose c a b _ condition _ rest hs.right.head hc hs.right.tail
        (hassign he)).mono ?_)
      rintro r t ⟨hr, rfl⟩
      refine ⟨hr, ?_⟩
      congr 1
      omega
    · rw [Term.wordsAt_fallback] at hs
      rw [Finds, Term.wordsAt_fallback]
      simp only [List.append_assoc, List.cons_append, List.length_append, List.length_cons] at hs ⊢
      refine (hcondition c i _ hs (.cons (by decide))).bind ?_
      rintro condition t ⟨hc, rfl⟩
      refine .accepted rfl ((hd.fallback c b _ condition rest hs.right.head hc hs.right.tail
        (hassign he)).mono ?_)
      rintro r t ⟨hr, rfl⟩
      refine ⟨hr, ?_⟩
      congr 1
      omega
  · rw [← Term.wordsAt_succ he] at hs
    rw [Finds, ← Term.wordsAt_succ he]
    refine (hcondition e i rest hs (hrest.mono (by decide))).bind ?_
    rintro r t ⟨hr, rfl⟩
    exact .declined (hrest.ne (by decide)) (.pure ⟨hr, rfl⟩)

-- No expression begins with the mark of a reference.
theorem referenceMark {kind : TokenKind} {f : Option Nat → Parser Draft} {ws : List Word}
    {Q : Draft → Input → Prop} (hw : ∀ w ∈ ws.head?, Term.isOpening w.kind = true)
    (h : Yields (f none) (.ofWords i ws) Q) :
    Yields (referenceMark kind >>= f) (.ofWords i ws) Q := by
  have hne : ∀ w ∈ ws.head?, w.kind ≠ .symbol .ampersand := by
    intro w hm hk
    have hopening := hw w hm
    rw [hk] at hopening
    exact absurd hopening (by decide)
  unfold Parser.referenceMark
  split
  · exact .declined hne h
  · exact h

theorem assignment (hd : d.ReadsAll script) : Reads script 2 (assignment d) := by
  intro e i rest hs hrest
  by_cases he : e.level = 2
  · obtain ⟨target, o, value, rfl⟩ := Term.eq_assign he
    rw [Term.wordsAt_assign] at hs
    rw [Finds, Term.wordsAt_assign]
    simp only [List.cons_append, List.length_cons] at hs ⊢
    have hreach : Ends 3 (.symbol o.1 :: (value.wordsAt 2 ++ rest)) :=
      .cons (Nat.le_of_eq (TokenKind.reach_of_isAssignment o.2))
    have htarget : Finds script (.named target) 3 (Parser.conditional d) i
        (.symbol o.1 :: (value.wordsAt 2 ++ rest)) :=
      conditional hd hs hreach fun h => absurd h (by simp [Term.level])
    refine Yields.bind htarget ?_
    rintro left t ⟨hl, rfl⟩
    refine .ahead 0 (.ite_pos o.2 (.next (referenceMark ?_ ?_)))
    · obtain ⟨w, ws, hwords, hw⟩ := value.wordsAt_opening 2
      rw [hwords]
      rintro v ⟨rfl⟩
      exact hw
    · refine (hd.assigned value (i + 2) rest hs.tail.tail hrest).bind ?_
      rintro right t ⟨hr, rfl⟩
      refine .pure ⟨?_, ?_⟩
      · rw [Script.form_joining, hl, hr, show i + ((Term.named target).wordsAt 3).length = i + 1 from rfl,
          hs.tail.head]
        rfl
      · congr 1
        omega
  · rw [← Term.wordsAt_succ he] at hs
    rw [Finds, ← Term.wordsAt_succ he]
    refine (conditional hd hs (hrest.mono (by decide)) fun _ => hrest).bind ?_
    rintro r t ⟨hr, rfl⟩
    refine .ahead 0 ?_
    cases hk : (rest[0]?).map Word.kind with
    | none => exact .pure ⟨hr, rfl⟩
    | some kind =>
        refine .ite_neg (fun hassign => ?_) (.pure ⟨hr, rfl⟩)
        have hle := hrest.lookahead hk
        rw [TokenKind.reach_of_isAssignment hassign] at hle
        omega

-- Operands of a keyword from left to right, like those of a binary operator.
theorem joined_then {operand : Parser Draft} {Q : Draft → Input → Prop} (j : Joint)
    (ho : Reads script (j.level + 1) operand) (e : Term)
    (hs : script.Spells i (e.wordsAt j.level ++ rest)) (hrest : Ends (j.level + 1) rest)
    (next : ∀ r, script.form r = e.shape →
      Loops (joinedRound j.keyword operand) r (.ofWords (i + (e.wordsAt j.level).length) rest) Q) :
    Yields (joined j.keyword operand) (.ofWords i (e.wordsAt j.level ++ rest)) Q := by
  have single (e : Term) (rest : List Word) (he : ∀ l r, e ≠ .joined j l r)
      (hs : script.Spells i (e.wordsAt j.level ++ rest)) (hrest : Ends (j.level + 1) rest)
      (next : ∀ r, script.form r = e.shape →
        Loops (joinedRound j.keyword operand) r (.ofWords (i + (e.wordsAt j.level).length) rest) Q) :
      Yields (joined j.keyword operand) (.ofWords i (e.wordsAt j.level ++ rest)) Q := by
    have hlevel : e.level ≠ j.level := by
      intro h
      obtain ⟨l, r, rfl⟩ := Term.eq_joined h
      exact he l r rfl
    rw [← Term.wordsAt_succ hlevel] at hs next ⊢
    refine (ho e i rest hs hrest).bind ?_
    rintro r t ⟨hr, rfl⟩
    exact (next r hr).iterate
  induction e generalizing rest with
  | joined j' l r ihl _ =>
      by_cases hj : j' = j
      · subst hj
        rw [Term.wordsAt_joined] at hs next ⊢
        simp only [List.append_assoc, List.cons_append, List.length_append,
          List.length_cons] at hs next ⊢
        refine ihl hs (.cons (Nat.le_of_eq j'.reach_eq)) fun left hl => Loops.again ?_
        refine .accepted rfl ((ho r _ rest hs.right.tail hrest).bind ?_)
        rintro right t ⟨hr, rfl⟩
        refine .pure ⟨_, rfl, ?_, ?_⟩
        · simp only [Input.ofWords, List.length_map, List.length_cons, List.length_append]
          omega
        · have hform : script.form (.joining .binary (i + (l.wordsAt j'.level).length) left right) =
              (Term.joined j' l r).shape := by
            rw [Script.form_joining, hl, hr, hs.right.head]
            rfl
          have hnext := next _ hform
          rwa [show i + ((l.wordsAt j'.level).length + ((r.wordsAt (j'.level + 1)).length + 1)) =
            i + (l.wordsAt j'.level).length + 1 + (r.wordsAt (j'.level + 1)).length by omega] at hnext
      · exact single _ _ (fun l r h => hj (Term.joined.inj h).1) hs hrest next
  | _ => exact single _ _ (fun l r h => by cases h) hs hrest next

theorem joined {operand : Parser Draft} (j : Joint) (ho : Reads script (j.level + 1) operand) :
    Reads script j.level (joined j.keyword operand) := by
  intro e i rest hs hrest
  refine joined_then j ho e hs (hrest.mono (Nat.le_succ _)) fun r hr => Loops.done ?_
  refine .declined (hrest.ne ?_) (.pure ⟨r, rfl, hr, rfl⟩)
  rw [j.reach_eq]
  exact Nat.lt_succ_self _

theorem expression (hd : d.ReadsAll script) : Reads script 0 (expression d) :=
  joined .either (joined .both (assignment hd))

end Grammar.Parser.Reads

namespace Grammar

open Grammar.Parser

variable {script : Script} {d : Deeper}

theorem choose_production (hd : d.ReadsAll script) (c a b : Term) (question : Nat)
    (condition : Draft) (i : Nat) (rest : List Word) (hq : script.text question = "?")
    (hc : script.form condition = c.shape)
    (hs : script.Spells i (a.wordsAt 2 ++ .colon :: (b.wordsAt 2 ++ rest))) (hrest : Ends 2 rest) :
    Yields (branches d question condition)
      (.ofWords i (a.wordsAt 2 ++ .colon :: (b.wordsAt 2 ++ rest))) fun d t =>
        script.form d = (Term.choose c a b).shape ∧
          t = .ofWords (i + (a.wordsAt 2).length + 1 + (b.wordsAt 2).length) rest := by
  have hne : ∀ w ∈ (a.wordsAt 2 ++ .colon :: (b.wordsAt 2 ++ rest)).head?,
      w.kind ≠ .symbol .colon := by
    obtain ⟨w, ws, hwords, hw⟩ := a.wordsAt_opening 2
    rw [hwords]
    rintro v ⟨rfl⟩ hk
    rw [hk] at hw
    exact absurd hw (by decide)
  refine .declined hne ((Reads.assignment hd a i _ hs (.cons (by decide))).bind ?_)
  rintro chosen t ⟨ha, rfl⟩
  refine .expect rfl ((Reads.assignment hd b _ rest hs.right.tail hrest).bind ?_)
  rintro otherwise t ⟨hb, rfl⟩
  refine .pure ⟨?_, rfl⟩
  rw [Script.form, Tree.map_mk, Script.image_token, hq, Term.shape, ← hc, ← ha, ← hb]
  rfl

theorem fallback_production (hd : d.ReadsAll script) (c b : Term) (question : Nat)
    (condition : Draft) (rest : List Word) (hq : script.text question = "?")
    (hc : script.form condition = c.shape)
    (hs : script.Spells (question + 1) (.colon :: (b.wordsAt 2 ++ rest))) (hrest : Ends 2 rest) :
    Yields (branches d question condition)
      (.ofWords (question + 1) (.colon :: (b.wordsAt 2 ++ rest))) fun d t =>
        script.form d = (Term.fallback c b).shape ∧
          t = .ofWords (question + 2 + (b.wordsAt 2).length) rest := by
  refine .accepted rfl ((Reads.assignment hd b _ rest hs.tail hrest).bind ?_)
  rintro otherwise t ⟨hb, rfl⟩
  refine .pure ⟨?_, rfl⟩
  rw [Script.form, Tree.map_mk, Script.image_pair, hq, hs.head, Term.shape, ← hc, ← hb]
  rfl

-- By induction on the levels: every goal reads expressions, given that the goals one level deeper
-- do.
theorem parse_readsAll (script : Script) (levels : Nat) :
    Deeper.ReadsAll script (parse levels) := by
  induction levels with
  | zero =>
      exact {
        expression := fun _ _ _ _ _ => .tooDeep
        assigned := fun _ _ _ _ _ => .tooDeep
        operands := fun _ _ _ _ _ _ _ _ => .tooDeep
        unary := fun _ _ _ _ _ => .tooDeep
        choose := fun _ _ _ _ _ _ _ _ _ _ _ => .tooDeep
        fallback := fun _ _ _ _ _ _ _ _ _ => .tooDeep }
  | succ levels ih =>
      exact {
        expression := Reads.expression ih
        assigned := Reads.assignment ih
        operands := fun minimum hpos hle => Reads.operands ih (by omega) (by omega) (.inl rfl)
        unary := Reads.unary ih
        choose := choose_production ih
        fallback := fallback_production ih }

end Grammar

end Census
