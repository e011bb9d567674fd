import Census.Proofs.Grammar.Run

namespace Census.Grammar

-- How many levels a goal may enter before it takes a terminal: its own, and for a statement also
-- that of the expression it may begin with.
def Goal.need : Goal → Nat
  | .statement => 2
  | _ => 1

-- The tokens of statements that leave no node.
def Terminal.isMark (m : Terminal) : Bool := m.kind = .symbol .semicolon || m.kind = .closeTag

-- Nothing but empty statements stands between `s` and `t`.
def Input.Blank (s t : Input) : Prop :=
  ∃ marks, s.rest = marks ++ t.rest ∧ ∀ m ∈ marks, m.isMark = true

theorem Input.Blank.trans {s t u : Input} (h : s.Blank t) (h' : t.Blank u) : s.Blank u := by
  obtain ⟨ms, hs, hms⟩ := h
  obtain ⟨ns, ht, hns⟩ := h'
  refine ⟨ms ++ ns, by rw [hs, ht, List.append_assoc], fun m hm => ?_⟩
  exact (List.mem_append.1 hm).elim (hms m) (hns m)

-- Where the result of a goal lies if it was parsed from `s` to `t`.
def Goal.Placed (s : Input) : (goal : Goal) → goal.Result → Input → Prop
  | .statement, r, t =>
      s.index < t.index ∧ Row [] s.index t.index (Option.toList r) ∧ (r = none → s.Blank t)
  | .member, r, t => Row [] s.index t.index r
  | .branches _ condition, r, t => ∀ lo, Sits lo s.index condition → Sits lo t.index r
  | .switchCase, r, t | .expression, r, t | .assigned, r, t | .operands _, r, t
  | .unary, r, t => Sits s.index t.index r

-- Two levels for every terminal that is left are enough, and results lie where they were read.
def Deeper.Placing (levels : Nat) (d : Deeper) : Prop :=
  ∀ goal s room, 2 * s.stop + goal.need ≤ room + 2 * s.index →
    Parser.Run levels room (d goal) s (goal.Placed s)

namespace Parser

-- A run that puts one draft, a list of drafts or perhaps a draft where it reads.
def Puts (levels room : Nat) (p : Parser Draft) (s : Input) : Prop :=
  Run levels room p s fun d t => Sits s.index t.index d

def PutsAll (levels room : Nat) (p : Parser (List Draft)) (s : Input) : Prop :=
  Run levels room p s fun ds t => Row [] s.index t.index ds

def PutsAny (levels room : Nat) (p : Parser (Option Draft)) (s : Input) : Prop :=
  Run levels room p s fun o t => Row [] s.index t.index o.toList

-- Drafts and the number of the terminal that closes them.
def PutsUpTo (levels room : Nat) (p : Parser (List Draft × Nat)) (s : Input) : Prop :=
  Run levels room p s fun r t => Row [] s.index r.2 r.1 ∧ t.index = r.2 + 1

namespace Puts

variable {levels room : Nat} {s : Input} {d : Deeper}

theorem through {item : Parser (List Draft)} {close : Symbol}
    (h : ∀ t, s.index ≤ t.index → t.stop = s.stop → PutsAll levels room item t) :
    PutsUpTo levels room (through close item) s := by
  refine .iterate (fun items t => Row [] s.index t.index items) (.nil (Nat.le_refl _))
    fun items t hle hstop hrow => ?_
  refine .accept (fun u _ hu => .pure ⟨hrow, hu⟩) (.here ?_)
  exact (h t hle hstop).bind fun more u _ _ hmore => .pure (hrow.append hmore (Nat.le_refl _))

theorem commaList {item : Parser Draft}
    (h : ∀ t, s.index ≤ t.index → t.stop = s.stop → Puts levels room item t) :
    Run levels room (commaList item) s fun ds t => Row [] s.index t.index ds ∧ ds ≠ [] := by
  refine .iterate (fun items t => Row [] s.index t.index items) (.nil (Nat.le_refl _))
    fun items t hle hstop hrow => ?_
  apply (h t hle hstop).bind
  intro d u _ _ hd
  have hall : Row [] s.index u.index (items ++ [d]) := hrow.append hd.row (Nat.le_refl _)
  exact .accept (fun v _ hv => .pure (hall.mono (Nat.le_refl _) (by omega)))
    (.pure ⟨hall, by simp⟩)

theorem closedList {item : Parser Draft} {close : Symbol}
    (h : ∀ t, s.index ≤ t.index → t.stop = s.stop → Puts levels room item t) :
    PutsUpTo levels room (closedList close item) s := by
  refine Run.bind (R := fun items t => Row [] s.index t.index items) ?_ fun items t _ _ hrow => ?_
  · refine .iterate (fun items t => Row [] s.index t.index items) (.nil (Nat.le_refl _))
      fun items t hle hstop hrow => ?_
    refine .ahead fun _ => .ite (.pure hrow) ((h t hle hstop).bind fun d u _ _ hd => ?_)
    have hall : Row [] s.index u.index (items ++ [d]) := hrow.append hd.row (Nat.le_refl _)
    exact .accept (fun v _ hv => .pure (hall.mono (Nat.le_refl _) (by omega))) (.pure hall)
  · apply Run.expect.bind
    intro last u _ _ hu
    obtain ⟨rfl, hu⟩ := hu
    exact .pure ⟨hrow, hu⟩

end Puts

end Parser

end Census.Grammar
