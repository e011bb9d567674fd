import Census.Proofs.Grammar.Forming
import Census.Proofs.Grammar.Production
import Census.Proofs.Grammar.Severed

namespace Census.Grammar

variable {ts : List Terminal} {n i j levels spare : Nat} {k k' : TokenKind}

-- What is left in front of the end of a text.
theorem Input.behind_take_last (hn : i + 1 = n) (hk : kindAt ts i = some k) :
    ∃ b, Input.behind (ts.take n) i = ⟨i, [⟨k, b⟩]⟩ := by
  subst hn
  obtain ⟨⟨_, b⟩, hm, rfl⟩ := Option.map_eq_some_iff.1 hk
  refine ⟨b, ?_⟩
  rw [Input.behind, List.drop_take, Nat.add_sub_cancel_left, List.take_one, List.head?_drop, hm]
  rfl

theorem Input.behind_take_pair (hn : i + 2 = n) (hk : kindAt ts i = some k)
    (hk' : kindAt ts (i + 1) = some k') :
    ∃ b b', Input.behind (ts.take n) i = ⟨i, [⟨k, b⟩, ⟨k', b'⟩]⟩ := by
  obtain ⟨b', hlast⟩ := behind_take_last hn hk'
  obtain ⟨⟨kind, b⟩, hm, rfl⟩ := Option.map_eq_some_iff.1 hk
  refine ⟨b, b', ?_⟩
  have htake : (ts.take n)[i]? = some ⟨kind, b⟩ := by rw [List.getElem?_take_of_lt (by omega), hm]
  rw [Input.behind, List.drop_eq_getElem?_toList_append, htake, (Input.mk.inj hlast).2]
  rfl

namespace Parser

variable {α β : Type} {s : Option (Option TokenKind)} {d : Deeper} {p q : Parser α}

-- At every place where the next terminal is what it is known to be.
def Severs (ts : List Terminal) (n spare : Nat) (s : Option (Option TokenKind))
    (p q : Parser α) : Prop :=
  ∀ i ≤ n, (∀ kind ∈ s, kindAt ts i = kind) → SeversAt ts n spare i p q

theorem Severs.of_lt (hq : Orderly spare q)
    (h : ∀ i < n, (∀ kind ∈ s, kindAt ts i = kind) → SeversAt ts n spare i p q) :
    Severs ts n spare s p q := by
  intro i hi hs
  rcases Nat.lt_or_eq_of_le hi with hlt | rfl
  · exact h i hlt hs
  · exact .of_ends hq

theorem severs_look {f g : Option TokenKind → Parser α} (hg : Orderly spare (ahead 0 >>= g))
    (hi : i ≤ n) (hf : i < n → SeversAt ts n spare i (f (kindAt ts i)) (g (kindAt ts i))) :
    SeversAt ts n spare i (ahead 0 >>= f) (ahead 0 >>= g) := by
  rcases Nat.lt_or_eq_of_le hi with hlt | rfl
  · exact .ahead hlt (hf hlt)
  · exact .of_ends hg

theorem severs_next (hi : i ≤ n) : SeversAt ts n spare i next next := by
  rcases Nat.lt_or_eq_of_le hi with hlt | rfl
  · exact .next hlt
  · exact .of_ends .next

section Decisions

-- Where only a beginning of a construct is left, its end is missing, unless it is sought too deep.
theorem exhausted_of_missing (q : Deeper → Parser α) {s : Input} (hle : n ≤ i + 2)
    (hdeep : q (parse 0) s = .error (.tooDeep i))
    (hend : ∀ levels, q (parse (levels + 1)) s = .error .atEnd) :
    Exhausted spare n (q (parse (levels + spare)) s) := by
  cases hlevels : levels + spare with
  | zero =>
      rw [hdeep]
      exact .deep (by omega) hle
  | succ levels =>
      rw [hend]
      exact .atEnd

-- The last terminal, if it is taken.
theorem severs_last {f : Nat → Parser α} (hn : i + 1 = n) (hf : ∀ a, Orderly spare (f a)) :
    SeversAt ts n spare i p (next >>= f) := by
  have hnext : next (.behind (ts.take n) i) = .ok (i, ⟨n, []⟩) ∨
      next (.behind (ts.take n) i) = .error .atEnd := by
    cases hk : kindAt ts i with
    | none =>
        right
        have hnone : ts[i]? = none := by simpa [kindAt] using hk
        have hle : (ts.take n).length ≤ i :=
          Nat.le_trans (List.length_take_le' n ts) (List.getElem?_eq_none_iff.1 hnone)
        rw [next, Input.behind, List.drop_eq_nil_of_le hle]
    | some k =>
        left
        obtain ⟨b, hlast⟩ := Input.behind_take_last hn hk
        rw [hlast, ← hn]
        rfl
  rw [SeversAt]
  simp only [Bind.bind]
  rcases hnext with hnext | hnext
  · rw [hnext]
    exact .exhausted _ ((hf i).ends n)
  · rw [hnext]
    exact .exhausted _ .atEnd

-- A look at the second terminal: where there is one, it sees the same.
theorem severs_second {f g : Option TokenKind → Parser α} (hi : i < n)
    (hf : SeversAt ts n spare i (f (kindAt ts (i + 1))) (g (kindAt ts (i + 1))))
    (hlast : i + 1 = n → SeversAt ts n spare i (f (kindAt ts (i + 1))) (g none)) :
    SeversAt ts n spare i (ahead 1 >>= f) (ahead 1 >>= g) := by
  rcases Nat.lt_or_eq_of_le (Nat.succ_le_of_lt hi) with hlt | hn
  · exact .ahead hlt hf
  · have hsevers := hlast hn
    rw [SeversAt] at hsevers ⊢
    rwa [ahead_behind, ahead_behind, kindAt_take_of_le (Nat.le_of_eq hn.symm)]

-- A terminal that is taken unless it stands in front of something else.
theorem severs_taken {c : Option TokenKind → Prop} [DecidablePred c] {p p' : Parser α}
    {f f' : Nat → Parser α} (hi : i < n) (hc : ¬c none) (hp : SeversAt ts n spare i p p')
    (hf : SeversAt ts n spare i (next >>= f) (next >>= f')) (hf' : ∀ a, Orderly spare (f' a)) :
    SeversAt ts n spare i (ahead 1 >>= fun kind => if c kind then p else next >>= f)
      (ahead 1 >>= fun kind => if c kind then p' else next >>= f') := by
  refine severs_second hi (.ite hp hf) fun hn => ?_
  rw [if_neg hc]
  exact severs_last hn hf'

-- The word of an array at the end of the text.
theorem severs_array {expected : Expected} {p p' : Parser α} (hi : i < n)
    (hk : kindAt ts i = some (.keyword .kwArray)) (hp : SeversAt ts n spare i p p') :
    SeversAt ts n spare i
      (ahead 1 >>= fun kind => if kind = some (.symbol .leftParen) then p else unexpected expected)
      (ahead 1 >>= fun kind =>
        if kind = some (.symbol .leftParen) then p' else unexpected expected) := by
  refine severs_second hi (.ite hp (.unexpected expected)) fun hn => ?_
  by_cases hopens : kindAt ts (i + 1) = some (.symbol .leftParen)
  · obtain ⟨b, hlast⟩ := Input.behind_take_last hn hk
    refine .torn _ (hn ▸ .array hk hopens) ?_
    rw [hlast]
    exact .refused hn expected
  · rw [if_neg hopens]
    exact .unexpected expected

-- Whether a type name in parentheses comes behind terminal `i`.
def castAt (ts : List Terminal) (i : Nat) : Bool :=
  (ts[i + 1]?).any (·.namesCast) && kindAt ts (i + 2) = some (.symbol .rightParen)

theorem atCast_behind (ts : List Terminal) (i : Nat) (f : Bool → Parser α) :
    (atCast >>= f) (.behind ts i) = f (castAt ts i) (.behind ts i) := by
  rw [castAt, kindAt, ← List.getElem?_drop, ← List.getElem?_drop]
  rfl

theorem castAt_take (h : i + 2 < n) : castAt (ts.take n) i = castAt ts i := by
  rw [castAt, castAt, kindAt_take h, List.getElem?_take_of_lt (by omega)]

theorem castAt_take_of_le (h : n ≤ i + 2) : castAt (ts.take n) i = false := by
  rw [castAt, kindAt_take_of_le h, Bool.and_eq_false_iff]
  exact .inr rfl

-- A parenthesis behind which a cast would be cut off begins an expression in parentheses.
theorem severs_cast (hi : i < n)
    (hcasts : ∀ m ∈ ts, m.namesCast = true → m.kind = .identifier ∨ m.kind = .keyword .kwArray)
    (hk : kindAt ts i = some (.symbol .leftParen))
    (hcast : SeversAt ts n spare i (cast d) (cast (parse (levels + spare))))
    (hpower : SeversAt ts n spare i (power d) (power (parse (levels + spare)))) :
    SeversAt ts n spare i (atCast >>= fun found => if found = true then cast d else power d)
      (atCast >>= fun found =>
        if found = true then cast (parse (levels + spare))
        else power (parse (levels + spare))) := by
  rw [SeversAt, atCast_behind, atCast_behind]
  rcases Nat.lt_or_ge (i + 2) n with hlt | hle
  · rw [castAt_take hlt]
    exact SeversAt.ite hcast hpower
  · rw [castAt_take_of_le hle]
    by_cases hfound : castAt ts i = true
    · obtain ⟨hnames, hcloses⟩ := Bool.and_eq_true_iff.1 hfound
      have hcloses : kindAt ts (i + 2) = some (.symbol .rightParen) := by simpa using hcloses
      obtain ⟨m, hm, hnames⟩ := (Option.any_eq_true _ _).1 hnames
      have hword : kindAt ts (i + 1) = some m.kind := by rw [kindAt, hm, Option.map_some]
      rcases Nat.lt_or_eq_of_le hle with hshort | hn
      · obtain ⟨b, hlast⟩ := Input.behind_take_last (show i + 1 = n by omega) hk
        rw [hlast]
        exact .exhausted _ (exhausted_of_missing power (i := i + 1) (by omega) rfl fun _ => rfl)
      · obtain ⟨b, b', hpair⟩ := Input.behind_take_pair hn.symm hk hword
        rcases hcasts m (List.mem_of_getElem? hm) hnames with hkind | hkind <;>
          rw [hkind] at hpair hword
        · rw [hpair]
          exact .exhausted _ (exhausted_of_missing power (i := i + 1) (by omega) rfl fun _ => rfl)
        · refine .torn _ (hn ▸ .cast hk hword hcloses) ?_
          rw [hpair]
          cases hlevels : levels + spare with
          | zero => exact .deep (by omega) (Nat.le_of_eq hn)
          | succ _ => exact .refused hn.symm _
    · rw [if_neg hfound]
      exact hpower

-- What begins with the word for static things at the end of the text.
theorem severs_static (hi : i < n) (hk : kindAt ts i = some (.keyword .kwStatic))
    (hstatic : SeversAt ts n spare i (staticVariables d) (staticVariables (parse (levels + spare))))
    (hvalue : SeversAt ts n spare i (expressionStatement d)
      (expressionStatement (parse (levels + spare)))) :
    SeversAt ts n spare i
      (ahead 1 >>= fun kind =>
        if kind = some .variableName then staticVariables d else expressionStatement d)
      (ahead 1 >>= fun kind =>
        if kind = some .variableName then staticVariables (parse (levels + spare))
        else expressionStatement (parse (levels + spare))) := by
  refine severs_second hi (.ite hstatic hvalue) fun hn => ?_
  obtain ⟨b, hlast⟩ := Input.behind_take_last hn hk
  have hle : n ≤ i + 2 := by omega
  rw [SeversAt, hlast]
  exact .exhausted _ (exhausted_of_missing expressionStatement hle rfl fun _ => rfl)

-- Whether the function at terminal `i` has a name.
def functionAt (ts : List Terminal) (i : Nat) : Bool :=
  kindAt ts (i + 1) = some .identifier ||
    kindAt ts (i + 1) = some (.symbol .ampersand) && kindAt ts (i + 2) = some .identifier

theorem atFunction_behind (ts : List Terminal) (i : Nat) (f : Bool → Parser α) :
    (atFunction >>= f) (.behind ts i) = f (functionAt ts i) (.behind ts i) := by
  have hfound : atFunction (.behind ts i) = .ok (functionAt ts i, .behind ts i) := by
    rw [atFunction, ahead_bind, functionAt, kindAt, kindAt, ← List.getElem?_drop,
      ← List.getElem?_drop, Input.behind]
    by_cases hname : ((ts.drop i)[1]?).map (·.kind) = some .identifier
    · rw [if_pos hname, hname]
      rfl
    · rw [if_neg hname, decide_eq_false hname, Bool.false_or]
      rfl
  exact bind_of_ok hfound

theorem functionAt_take (h : i + 2 < n) : functionAt (ts.take n) i = functionAt ts i := by
  rw [functionAt, functionAt, kindAt_take h, kindAt_take (by omega)]

-- A function behind which its name would be cut off begins an expression.
theorem severs_function (hi : i < n) (hk : kindAt ts i = some (.keyword .kwFunction))
    (hfunction : SeversAt ts n spare i (function d) (function (parse (levels + spare))))
    (hvalue : SeversAt ts n spare i (expressionStatement d)
      (expressionStatement (parse (levels + spare)))) :
    SeversAt ts n spare i
      (atFunction >>= fun found => if found = true then function d else expressionStatement d)
      (atFunction >>= fun found =>
        if found = true then function (parse (levels + spare))
        else expressionStatement (parse (levels + spare))) := by
  rw [SeversAt, atFunction_behind, atFunction_behind]
  by_cases hsame : functionAt (ts.take n) i = functionAt ts i
  · rw [hsame]
    exact SeversAt.ite hfunction hvalue
  · have hshort : n ≤ i + 2 := Nat.not_lt.1 (mt functionAt_take hsame)
    rcases Nat.lt_or_eq_of_le hshort with hlt | hn
    · obtain ⟨b, hlast⟩ := Input.behind_take_last (show i + 1 = n by omega) hk
      have hbare : functionAt (ts.take n) i = false := by
        rw [functionAt, kindAt_take_of_le (by omega), kindAt_take_of_le hshort]
        rfl
      rw [hbare, hlast]
      exact .exhausted _ (exhausted_of_missing expressionStatement hshort rfl fun _ => rfl)
    · have hfront : kindAt (ts.take n) (i + 1) = kindAt ts (i + 1) := kindAt_take (by omega)
      rw [functionAt, functionAt, hfront, kindAt_take_of_le hshort] at hsame
      have hmark : kindAt ts (i + 1) = some (.symbol .ampersand) :=
        Decidable.byContradiction fun hnot => by simp [hnot] at hsame
      obtain ⟨b, b', hpair⟩ := Input.behind_take_pair hn.symm hk hmark
      have hbare : functionAt (ts.take n) i = false := by
        rw [functionAt, hfront, hmark, kindAt_take_of_le hshort]
        rfl
      rw [hbare, hpair]
      exact .exhausted _ (exhausted_of_missing expressionStatement hshort rfl fun _ => rfl)

-- The word for a namespace at the end of the text.
theorem severs_namespace {kind : TokenKind} {f f' : Draft → Parser β} {p p' : Parser β} (hi : i < n)
    (hk : kindAt ts i = some kind)
    (hdeclared : SeversAt ts n spare i (namespaceDeclaration d >>= f)
      (namespaceDeclaration (parse (levels + spare)) >>= f'))
    (hp : SeversAt ts n spare i p p') :
    SeversAt ts n spare i
      (ahead 1 >>= fun behind =>
        if (decide (kind = .keyword .kwNamespace) && behind != some (.symbol .backslash)) = true
        then namespaceDeclaration d >>= f else p)
      (ahead 1 >>= fun behind =>
        if (decide (kind = .keyword .kwNamespace) && behind != some (.symbol .backslash)) = true
        then namespaceDeclaration (parse (levels + spare)) >>= f' else p') := by
  by_cases hkind : kind = .keyword .kwNamespace
  · refine severs_second hi (.ite hdeclared hp) fun hn => ?_
    rw [hkind] at hk
    obtain ⟨b, hlast⟩ := Input.behind_take_last hn hk
    rw [SeversAt, hkind, hlast]
    exact .exhausted _ .atEnd
  · rw [SeversAt, ahead_bind, ahead_bind, decide_eq_false hkind, Bool.false_and, Bool.false_and]
    exact hp

end Decisions

section Names

variable {first bare last : Nat} {lead : Option Nat}

theorem nameRound_orderly : Orderly spare (nameRound first lead bare last) := by
  have h : Parallel (parse 0) (parse (0 + spare)) (nameRound first lead bare last) _ :=
    .nameRound first lead bare last
  exact h.orderly

-- In front of each round stands the last word so far.
theorem nameRound_keeps : Builds ts (nameRound first lead bare last) i fun
    | .again word => fun j => word + 1 = j ∧ NameAt ts word
    | .done _ => fun _ => True := by
  refine .ahead (.ahead (.ite (fun hmore => .next ?_) fun _ => .pure trivial))
  obtain ⟨-, hword⟩ := Bool.and_eq_true_iff.1 hmore
  obtain ⟨kind, hkind, hname⟩ := (Option.any_eq_true _ _).1 hword
  refine Builds.took.bind fun word j hj => .pure ?_
  obtain ⟨rfl, rfl⟩ := hj
  exact ⟨rfl, kind, hkind, hname⟩

-- A separator whose word is cut off is left.
theorem severs_nameRound (hi : i ≤ n) (hlast : last + 1 = i) (hname : NameAt ts last) :
    SeversAt ts n spare i (nameRound first lead bare last) (nameRound first lead bare last) := by
  refine severs_look nameRound_orderly hi fun hlt => severs_second hlt (.ite ?_ (.pure hi _)) ?_
  · refine (severs_next hi).bind (fun _ j hj _ => ?_) fun _ => Orderly.next.bind fun _ => .pure _
    exact (severs_next hj).bind (fun _ k hk _ => .pure hk _) fun _ => .pure _
  · intro hn
    rw [Option.any_none, Bool.and_false]
    by_cases hmore : (decide (kindAt ts i = some (.symbol .backslash)) &&
        (kindAt ts (i + 1)).any TokenKind.isName) = true
    · obtain ⟨hseparator, hword⟩ := Bool.and_eq_true_iff.1 hmore
      obtain ⟨kind, hkind, hisName⟩ := (Option.any_eq_true _ _).1 hword
      subst hlast
      have hseparator : kindAt ts (last + 1) = some (.symbol .backslash) :=
        of_decide_eq_true hseparator
      refine .torn _ (hn ▸ .separator hname hseparator ⟨kind, hkind, hisName⟩) ?_
      obtain ⟨b, hlast⟩ := Input.behind_take_last hn hseparator
      rw [hlast]
      exact .left _ b hn
    · rw [if_neg hmore]
      exact .pure hi _

theorem severs_accept (hi : i ≤ n) (kind : TokenKind) :
    SeversAt ts n spare i (accept kind) (accept kind) := by
  have h : Parallel (parse 0) (parse (0 + spare)) (accept kind) (accept kind) := .accept kind
  refine severs_look h.orderly hi fun _ => ?_
  split
  · exact (severs_next hi).bind (fun _ j hj _ => .pure hj _) fun _ => .pure _
  · exact .pure hi _

theorem severs_anyName (hi : i ≤ n) : SeversAt ts n spare i anyName anyName := by
  have h : Parallel (parse 0) (parse (0 + spare)) anyName anyName := .anyName
  refine severs_look h.orderly hi fun _ => ?_
  split
  · split
    · exact severs_next hi
    · exact .unexpected _
  · exact .unexpected _

theorem severs_qualifiedName (hi : i ≤ n) : SeversAt ts n spare i qualifiedName qualifiedName := by
  have hwhole : Parallel (parse 0) (parse (0 + spare)) qualifiedName qualifiedName := .qualifiedName
  have hrounds (first : Nat) (lead : Option Nat) (bare : Nat) : Parallel (parse 0) (parse (0 + spare))
      (iterate (nameRound first lead bare) bare) (iterate (nameRound first lead bare) bare) :=
    .iterate (.nameRound first lead bare) bare
  have hwords (first : Nat) (lead : Option Nat) := Parallel.anyName.bind (hrounds first lead)
  have hbehind (first : Nat) := (Parallel.accept (.symbol .backslash)).bind (hwords first)
  rcases Nat.lt_or_eq_of_le hi with hlt | rfl
  · rw [qualifiedName_eq]
    refine (SeversAt.here hlt).bind (fun first j hj _ => ?_) fun first => (hbehind first).orderly
    refine (severs_accept hj _).bind (fun lead j hj _ => ?_) fun lead => (hwords first lead).orderly
    refine (severs_anyName hj).bind (fun bare k hk hbare => ?_) fun bare =>
      (hrounds first lead bare).orderly
    obtain ⟨_, hbehind, rfl, rfl, hname⟩ := Forming.anyName _ _ hbare
    obtain rfl : k = bare + 1 := congrArg Input.index hbehind
    refine .iterate (fun last j => last + 1 = j ∧ NameAt ts last)
      (fun last j hj hlast => severs_nameRound hj hlast.1 hlast.2) (fun last j word k _ hword => ?_)
      (fun _ => nameRound_orderly) hk ⟨rfl, hname⟩
    obtain ⟨_, hbehind, hkept⟩ := nameRound_keeps _ _ hword
    obtain rfl := congrArg Input.index hbehind
    exact hkept
  · exact .of_ends hwhole.orderly

end Names

-- Where a run of the grammar on a whole text comes to a result, the grammar comes to the same on a
-- beginning of the text, or takes all of it, or finds its end, unless the end tears something or no
-- level is left to look for it.
theorem Sighted.severs
    (hcasts : ∀ m ∈ ts, m.namesCast = true → m.kind = .identifier ∨ m.kind = .keyword .kwArray)
    (hd : ∀ goal i, i ≤ n → SeversAt ts n spare i (parse levels goal) (parse (levels + spare) goal))
    (h : Sighted (parse levels) (parse (levels + spare)) s p q) : Severs ts n spare s p q := by
  have orderly {α : Type} {s : Option (Option TokenKind)} {p q : Parser α}
      (h : Sighted (parse levels) (parse (levels + spare)) s p q) : Orderly spare q :=
    h.parallel.orderly
  induction h with
  | pure a => exact fun i hi _ => .pure hi a
  | bind _ hf ihp ihf =>
      exact fun i hi hs =>
        (ihp i hi hs).bind (fun a j hj _ => ihf a j hj nofun) fun a => orderly (hf a)
  | deeper goal => exact fun i hi _ => hd goal i hi
  | next => exact fun i hi _ => severs_next hi
  | here => exact .of_lt (orderly (.here (s := none))) fun i hi _ => .here hi
  | look hf ih =>
      refine fun i hi _ => severs_look (orderly (.look (s := none) hf)) hi fun _ => ih _ i hi ?_
      exact fun _ hkind => Option.some.inj hkind
  | unexpected expected => exact fun _ _ _ => .unexpected expected
  | atEnd => exact fun _ _ _ => .fail _
  | iterate hs a ih =>
      exact fun i hi _ => .iterate (fun _ _ => True) (fun a j hj _ => ih a j hj nofun)
        (fun _ _ _ _ _ _ => trivial) (fun a => orderly (hs a)) hi trivial
  | qualifiedName => exact fun i hi _ => severs_qualifiedName hi
  | taken hc hp hf ihp ihf =>
      refine .of_lt (orderly (.taken (s := none) hc hp hf)) fun i hi _ =>
        severs_taken hi hc (ihp i (Nat.le_of_lt hi) nofun) ?_ fun a => orderly (hf a)
      exact (severs_next (Nat.le_of_lt hi)).bind (fun a j hj _ => ihf a j hj nofun)
        fun a => orderly (hf a)
  | atArray hp ih =>
      exact .of_lt (orderly (.atArray hp)) fun i hi hs =>
        severs_array hi (hs _ rfl) (ih i (Nat.le_of_lt hi) nofun)
  | atCast hcast hpower ihcast ihpower =>
      exact .of_lt (orderly (.atCast hcast hpower)) fun i hi hs =>
        severs_cast hi hcasts (hs _ rfl) (ihcast i (Nat.le_of_lt hi) nofun)
          (ihpower i (Nat.le_of_lt hi) nofun)
  | atStatic hstatic hvalue ihstatic ihvalue =>
      exact .of_lt (orderly (.atStatic hstatic hvalue)) fun i hi hs =>
        severs_static hi (hs _ rfl) (ihstatic i (Nat.le_of_lt hi) nofun)
          (ihvalue i (Nat.le_of_lt hi) nofun)
  | atFunction hfunction hvalue ihfunction ihvalue =>
      exact .of_lt (orderly (.atFunction hfunction hvalue)) fun i hi hs =>
        severs_function hi (hs _ rfl) (ihfunction i (Nat.le_of_lt hi) nofun)
          (ihvalue i (Nat.le_of_lt hi) nofun)
  | atNamespace hdeclared hp ihdeclared ihp =>
      exact .of_lt (orderly (.atNamespace hdeclared hp)) fun i hi hs =>
        severs_namespace hi (hs _ rfl) (ihdeclared i (Nat.le_of_lt hi) nofun)
          (ihp i (Nat.le_of_lt hi) nofun)

end Parser

open Grammar.Parser

-- By induction on the levels.
theorem parse_severs
    (hcasts : ∀ m ∈ ts, m.namesCast = true → m.kind = .identifier ∨ m.kind = .keyword .kwArray)
    (levels : Nat) (goal : Goal) (hi : i ≤ n) :
    SeversAt ts n spare i (parse levels goal) (parse (levels + spare) goal) := by
  induction levels generalizing goal i with
  | zero => exact .refused _ _
  | succ levels ih =>
      have hgoal : Sighted (parse levels) (parse (levels + spare)) none
          (goal.production (parse levels)) (goal.production (parse (levels + spare))) :=
        .production goal
      rw [Nat.succ_add]
      exact hgoal.severs hcasts (fun goal i hi => ih goal hi) i hi nofun

theorem file_severs
    (hcasts : ∀ m ∈ ts, m.namesCast = true → m.kind = .identifier ∨ m.kind = .keyword .kwArray)
    (levels spare n : Nat) :
    SeversAt ts n spare 0 (Parser.file (parse levels)) (Parser.file (parse (levels + spare))) := by
  have hfile : Sighted (parse levels) (parse (levels + spare)) none (Parser.file (parse levels))
      (Parser.file (parse (levels + spare))) := .file
  exact hfile.severs hcasts (fun goal i hi => parse_severs hcasts levels goal hi) 0 (Nat.zero_le n)
    nofun

-- The beginning of a file that parses is a file, or its end is missing, unless something is torn
-- there: then the last terminal may be refused. Under the limit of the whole file, the end may be
-- sought too deep, from the last two terminals on.
theorem parseFile_take
    (hcasts : ∀ m ∈ ts, m.namesCast = true → m.kind = .identifier ∨ m.kind = .keyword .kwArray)
    {drafts : List Draft} (h : parseFile levels ts = .ok drafts) {failure : Failure}
    (hcut : parseFile (levels + spare) (ts.take n) = .error failure) :
    failure = .atEnd ∨
      (∃ i, failure = .tooDeep i ∧ n ≤ i + 2 ∧ (spare = 0 ∨ spare = 1 ∧ Torn ts n)) ∨
      Torn ts n ∧ ∃ i expected, failure = .unexpected i expected ∧ i + 1 = n := by
  have hsevers := file_severs hcasts levels spare n
  unfold parseFile at h hcut
  rw [SeversAt, Input.behind, Input.behind, List.drop_zero, List.drop_zero] at hsevers
  generalize Parser.file (parse (levels + spare)) ⟨0, ts.take n⟩ = severed at hsevers hcut
  cases hwhole : Parser.file (parse levels) ⟨0, ts⟩ with
  | error e =>
      rw [hwhole] at h
      cases h
  | ok r =>
      rw [hwhole] at hsevers
      cases severed with
      | ok r => cases hcut
      | error e =>
          obtain rfl : e = failure := Except.error.inj hcut
          cases hsevers with
          | exhausted _ exhausted =>
              obtain rfl | ⟨i, rfl, late, tight⟩ := exhausted.failure
              · exact .inl rfl
              · exact .inr (.inl ⟨i, rfl, late, .inl tight⟩)
          | torn _ torn stuck =>
              cases stuck with
              | exhausted exhausted =>
                  obtain rfl | ⟨i, rfl, late, tight⟩ := exhausted.failure
                  · exact .inl rfl
                  · exact .inr (.inl ⟨i, rfl, late, .inl tight⟩)
              | refused hi expected => exact .inr (.inr ⟨torn, _, expected, rfl, hi⟩)
              | deep tight late =>
                  refine .inr (.inl ⟨_, rfl, Nat.le_succ_of_le late, ?_⟩)
                  exact (Nat.le_one_iff_eq_zero_or_eq_one.1 tight).imp_right fun h => ⟨h, torn⟩

end Census.Grammar
