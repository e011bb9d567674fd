import Census.Proofs.Grammar.Failure
import Census.Proofs.Grammar.Placement
import Census.Proofs.Grammar.Rounds

namespace Census.Grammar

-- What stands at the top level of a file, one thing after the other: the nodes of a statement,
-- a namespace in braces, or the head of one without braces. A statement is relative if its
-- first word is the keyword of a namespace, in front of a separator.
inductive Passage where
  | statement (relative : Bool) (nodes : List Draft)
  | braced (node : Draft)
  | head (first : Nat) (image : Image) (mark : Nat)

namespace Passage

def isStatement : Passage → Bool
  | .statement .. => true
  | _ => false

-- Whether the namespace in front goes on with this passage.
def isOwned : Passage → Bool
  | .statement relative _ => !relative
  | _ => false

def nodes : Passage → List Draft
  | .statement _ nodes => nodes
  | .braced node => [node]
  | .head .. => []

-- A namespace without braces.
def openNode (first : Nat) (image : Image) (mark : Nat) (statements : List Draft) : Draft :=
  ⟨{ kind := .namespaceDecl, first, last := (statements.getLast?.map Draft.last).getD mark, image },
    statements⟩

-- The nodes that belong to a head in front of the passages, and all nodes behind those.
def grouped : List Passage → List Draft × List Draft
  | [] => ([], [])
  | .statement false nodes :: rest => (nodes ++ (grouped rest).1, (grouped rest).2)
  | .statement true nodes :: rest => ([], nodes ++ ((grouped rest).1 ++ (grouped rest).2))
  | .braced node :: rest => ([], node :: ((grouped rest).1 ++ (grouped rest).2))
  | .head first image mark :: rest =>
      ([], openNode first image mark (grouped rest).1 :: (grouped rest).2)

-- The nodes of a file.
def assemble (passages : List Passage) : List Draft := (grouped passages).1 ++ (grouped passages).2

theorem assemble_statement (relative : Bool) (nodes : List Draft) (passages : List Passage) :
    assemble (.statement relative nodes :: passages) = nodes ++ assemble passages := by
  cases relative <;> simp [assemble, grouped]

theorem grouped_fst (passages : List Passage) :
    (grouped passages).1 = (passages.takeWhile isOwned).flatMap nodes := by
  induction passages with
  | nil => rfl
  | cons p rest ih =>
      cases p with
      | statement relative found =>
          cases relative with
          | true => rfl
          | false =>
              rw [grouped, ih, List.takeWhile_cons_of_pos (by rfl)]
              rfl
      | braced node => rfl
      | head first image mark => rfl

-- Statements that are owned stand in front of the rest.
theorem grouped_append {owned : List Passage} (h : ∀ p ∈ owned, p.isOwned = true)
    (rest : List Passage) :
    grouped (owned ++ rest) = (owned.flatMap nodes ++ (grouped rest).1, (grouped rest).2) := by
  induction owned with
  | nil => rfl
  | cons p owned ih =>
      obtain ⟨hp, howned⟩ := List.forall_mem_cons.1 h
      cases p with
      | statement relative found =>
          cases relative with
          | true => cases hp
          | false =>
              rw [List.cons_append, grouped, ih howned, List.flatMap_cons, ← List.append_assoc]
              rfl
      | braced node => cases hp
      | head first image mark => cases hp

-- Among the nodes of a file, each head stands for a node with what it owns.
theorem assemble_head (before : List Passage) (first : Nat) (image : Image) (mark : Nat)
    (after : List Passage) : ∃ older later,
    assemble (before ++ .head first image mark :: after) =
      older ++ openNode first image mark ((after.takeWhile isOwned).flatMap nodes) :: later := by
  have hgrouped : ∃ older later,
      (grouped (before ++ .head first image mark :: after)).2 =
        older ++ openNode first image mark ((after.takeWhile isOwned).flatMap nodes) :: later := by
    induction before with
    | nil => exact ⟨[], (grouped after).2, by rw [List.nil_append, grouped, grouped_fst]; rfl⟩
    | cons p before ih =>
        obtain ⟨older, later, h⟩ := ih
        rw [List.cons_append]
        cases p with
        | statement relative found =>
            cases relative with
            | false => exact ⟨older, later, h⟩
            | true =>
                refine ⟨found ++ ((grouped (before ++ .head first image mark :: after)).1 ++ older),
                  later, ?_⟩
                rw [grouped, h]
                simp
        | braced node =>
            refine ⟨node :: ((grouped (before ++ .head first image mark :: after)).1 ++ older),
              later, ?_⟩
            rw [grouped, h]
            simp
        | head first' image' mark' =>
            refine ⟨openNode first' image' mark' (grouped (before ++ .head first image mark :: after)).1 :: older,
              later, ?_⟩
            rw [grouped, h]
            rfl
  obtain ⟨older, later, h⟩ := hgrouped
  exact ⟨_ ++ older, later, by rw [assemble, h, List.append_assoc]⟩

-- The statements behind a head, up to the next declaration of a namespace.
def following (after : List Passage) : List Passage := after.takeWhile isStatement

theorem takeWhile_isOwned {after : List Passage} (h : ∀ p ∈ following after, p.isOwned = true) :
    after.takeWhile isOwned = following after := by
  induction after with
  | nil => rfl
  | cons p after ih =>
      cases p with
      | statement relative found =>
          obtain ⟨hp, hrest⟩ := List.forall_mem_cons.1 h
          rw [List.takeWhile_cons_of_pos hp, ih hrest]
          rfl
      | braced node => rfl
      | head first image mark => rfl

-- Where nothing is missing, nothing is relative.
theorem isOwned_of_length {after : List Passage}
    (hne : ∀ found, .statement true found ∈ after → found ≠ [])
    (h : ((after.takeWhile isOwned).flatMap nodes).length = ((following after).flatMap nodes).length) :
    ∀ p ∈ following after, p.isOwned = true := by
  induction after with
  | nil => nofun
  | cons p after ih =>
      cases p with
      | statement relative found =>
          cases relative with
          | true =>
              have hlength : ([] : List Draft).length =
                  (found ++ (following after).flatMap nodes).length := h
              have hfound := List.length_pos_iff.2 (hne found List.mem_cons_self)
              rw [List.length_append, List.length_nil] at hlength
              omega
          | false =>
              have hlength : (found ++ (after.takeWhile isOwned).flatMap nodes).length =
                  (found ++ (following after).flatMap nodes).length := h
              rw [List.length_append, List.length_append] at hlength
              have hrest := ih (fun found hfound => hne found (List.mem_cons_of_mem _ hfound))
                (by omega)
              exact List.forall_mem_cons.2 ⟨rfl, hrest⟩
      | braced node => nofun
      | head first image mark => nofun

end Passage

section Reading

variable (deeper : Deeper)

-- Whether the next terminal is the keyword of a namespace.
def Input.keyed (s : Input) : Bool := (s.rest[0]?).map (·.kind) = some (.keyword .kwNamespace)

-- Whether a declaration of a namespace comes next: no separator follows its keyword.
def Input.opens (s : Input) : Bool :=
  s.keyed && (s.rest[1]?).map (·.kind) != some (.symbol .backslash)

-- Whether a namespace without braces ends here.
def Input.Closes (s : Input) : Prop := s.rest = [] ∨ s.keyed = true

-- The passage that comes next.
def Parser.passage : Parser Passage := do
  let kind ← Parser.ahead 0
  if kind = some (.keyword .kwNamespace) && (← Parser.ahead 1) != some (.symbol .backslash) then
    let first ← Parser.expectKeyword .kwNamespace
    let image ← Parser.namespaceImage
    match ← Parser.acceptSymbol .leftBrace with
    | some _ =>
        let (statements, last) ← Parser.through .rightBrace (Parser.topStatement deeper)
        return .braced ⟨{ kind := .namespaceDecl, first, last, image }, statements⟩
    | none => return .head first image (← Parser.terminator)
  else
    return .statement (kind = some (.keyword .kwNamespace)) (← Parser.topStatement deeper)

-- One round of the statements that a namespace without braces owns.
def Parser.openRound (found : List Draft) : Parser (Parser.Round (List Draft) (List Draft)) := do
  match ← Parser.ahead 0 with
  | none | some (.keyword .kwNamespace) => return .done found
  | some _ => return .again (found ++ (← Parser.topStatement deeper))

-- One round of a file.
def Parser.fileRound (found : List Draft) : Parser (Parser.Round (List Draft) (List Draft)) := do
  match ← Parser.ahead 0 with
  | none => return .done found
  | some kind =>
      if kind = .keyword .kwNamespace && (← Parser.ahead 1) != some (.symbol .backslash) then
        return .again (found ++ [← Parser.namespaceDeclaration deeper])
      else return .again (found ++ (← Parser.topStatement deeper))

-- The passages from one place of a file up to another.
inductive Passages : Input → List Passage → Input → Prop
  | nil (s : Input) : Passages s [] s
  | cons {s t u : Input} {p : Passage} {ps : List Passage} (rest : s.rest ≠ [])
      (first : Parser.passage deeper s = .ok (p, t)) (behind : Passages t ps u) :
      Passages s (p :: ps) u

end Reading

section Runs

open Grammar.Parser

variable {deeper : Deeper} {s t u v : Input} {p : Passage} {ps qs : List Passage}

namespace Passages

theorem split {before : List Passage} (h : Passages deeper s (before ++ p :: ps) u) :
    ∃ t v, Passages deeper s before t ∧ passage deeper t = .ok (p, v) ∧ Passages deeper v ps u := by
  induction before generalizing s with
  | nil =>
      cases h with
      | cons _ first behind => exact ⟨s, _, .nil s, first, behind⟩
  | cons q before ih =>
      cases h with
      | cons rest first behind =>
          obtain ⟨t, v, hbefore, hp, hafter⟩ := ih behind
          exact ⟨t, v, .cons rest first hbefore, hp, hafter⟩

theorem append (h : Passages deeper s ps t) (h' : Passages deeper t qs u) :
    Passages deeper s (ps ++ qs) u := by
  induction h with
  | nil => exact h'
  | cons rest first _ ih => exact .cons rest first (ih h')

-- A text has one list of passages only.
theorem unique (h : Passages deeper s ps u) (h' : Passages deeper s qs v) (hu : u.rest = [])
    (hv : v.rest = []) : ps = qs := by
  induction h generalizing qs with
  | nil s =>
      cases h' with
      | nil => rfl
      | cons rest _ _ => exact absurd hu rest
  | cons rest first _ ih =>
      cases h' with
      | nil => exact absurd hv rest
      | cons _ first' behind' =>
          obtain ⟨rfl, rfl⟩ := Prod.mk.inj (Except.ok.inj (first.symm.trans first'))
          rw [ih behind' hu]

end Passages

-- A passage that is no declaration is a statement.
theorem passage_of_not_opens (hs : s.opens = false) :
    passage deeper s = (do return .statement s.keyed (← topStatement deeper) : Parser Passage) s := by
  rw [passage, ahead_bind, ahead_bind, if_neg (by simpa [Input.opens, Input.keyed] using hs)]
  rfl

theorem passage_of_opens (hs : s.opens = true) :
    passage deeper s = (do
      let first ← expectKeyword .kwNamespace
      let image ← namespaceImage
      match ← acceptSymbol .leftBrace with
      | some _ =>
          let (statements, last) ← through .rightBrace (topStatement deeper)
          return .braced ⟨{ kind := .namespaceDecl, first, last, image }, statements⟩
      | none => return .head first image (← terminator) : Parser Passage) s := by
  rw [passage, ahead_bind, ahead_bind, if_pos (by simpa [Input.opens, Input.keyed] using hs)]

theorem opens_of_not_keyed (hs : s.keyed = false) : s.opens = false := by
  rw [Input.opens, hs]
  rfl

theorem isStatement_of_opens (hs : s.opens = true) (h : passage deeper s = .ok (p, t)) :
    p.isStatement = false := by
  rw [passage_of_opens hs] at h
  obtain ⟨first, a, -, h⟩ := bind_eq_ok h
  obtain ⟨image, b, -, h⟩ := bind_eq_ok h
  obtain ⟨brace, c, -, h⟩ := bind_eq_ok h
  cases brace with
  | some _ =>
      obtain ⟨r, d, -, h⟩ := bind_eq_ok h
      cases h
      rfl
  | none =>
      obtain ⟨mark, d, -, h⟩ := bind_eq_ok h
      cases h
      rfl

-- What begins with the keyword of a namespace is not owned by the namespace in front.
theorem isOwned_of_keyed (hs : s.keyed = true) (h : passage deeper s = .ok (p, t)) :
    p.isOwned = false := by
  cases hopens : s.opens with
  | true =>
      have hstatement := isStatement_of_opens hopens h
      cases p with
      | statement _ _ => cases hstatement
      | braced _ => rfl
      | head _ _ _ => rfl
  | false =>
      rw [passage_of_not_opens hopens] at h
      obtain ⟨ds, a, -, h⟩ := bind_eq_ok h
      cases h
      rw [Passage.isOwned, hs]
      rfl

-- Where a namespace without braces ends, no owned statement follows.
theorem grouped_of_closes (hs : s.Closes) (h : Passages deeper s ps t) :
    (Passage.grouped ps).1 = [] := by
  rw [Passage.grouped_fst]
  cases h with
  | nil => rfl
  | cons rest first _ =>
      have howned := isOwned_of_keyed (hs.resolve_left rest) first
      rw [List.takeWhile_cons_of_neg (by simp [howned])]
      rfl

theorem openRound_cases {found : List Draft} {r : Round (List Draft) (List Draft)}
    (h : openRound deeper found s = .ok (r, t)) :
    (r = .done found ∧ t = s ∧ s.Closes) ∨
      s.rest ≠ [] ∧ s.keyed = false ∧ ∃ ds, topStatement deeper s = .ok (ds, t) ∧
        r = .again (found ++ ds) := by
  obtain ⟨kind, u, hahead, h⟩ := bind_eq_ok h
  obtain ⟨hkind, rfl⟩ := Prod.mk.inj (Except.ok.inj hahead)
  split at h
  · cases h
    exact .inl ⟨rfl, rfl, .inl (by simpa using hkind)⟩
  · cases h
    exact .inl ⟨rfl, rfl, .inr (by rw [Input.keyed, hkind]; rfl)⟩
  · rename_i hne
    obtain ⟨ds, v, hds, h⟩ := bind_eq_ok h
    cases h
    refine .inr ⟨fun hnil => by simp [hnil] at hkind, ?_, ds, hds, rfl⟩
    rw [Input.keyed, hkind]
    simpa using hne

theorem fileRound_cases {found : List Draft} {r : Round (List Draft) (List Draft)}
    (h : fileRound deeper found s = .ok (r, t)) :
    (r = .done found ∧ t = s ∧ s.rest = []) ∨
      (s.opens = true ∧ ∃ d, namespaceDeclaration deeper s = .ok (d, t) ∧
        r = .again (found ++ [d])) ∨
      s.rest ≠ [] ∧ s.opens = false ∧ ∃ ds, topStatement deeper s = .ok (ds, t) ∧
        r = .again (found ++ ds) := by
  obtain ⟨kind, u, hahead, h⟩ := bind_eq_ok h
  obtain ⟨hkind, rfl⟩ := Prod.mk.inj (Except.ok.inj hahead)
  cases kind with
  | none =>
      cases h
      exact .inl ⟨rfl, rfl, by simpa using hkind⟩
  | some kind =>
      have hopens : s.opens = (kind = .keyword .kwNamespace &&
          (s.rest[1]?).map (·.kind) != some (.symbol .backslash)) := by
        simp [Input.opens, Input.keyed, hkind]
      obtain ⟨second, v, hahead, h⟩ := bind_eq_ok h
      obtain ⟨rfl, rfl⟩ := Prod.mk.inj (Except.ok.inj hahead)
      split at h
      · rename_i hcond
        obtain ⟨d, w, hd, h⟩ := bind_eq_ok h
        cases h
        exact .inr (.inl ⟨hopens.trans hcond, d, hd, rfl⟩)
      · rename_i hcond
        obtain ⟨ds, w, hds, h⟩ := bind_eq_ok h
        cases h
        refine .inr (.inr ⟨fun hnil => by simp [hnil] at hkind, ?_, ds, hds, rfl⟩)
        exact hopens.trans (Bool.eq_false_iff.2 hcond)

-- What a namespace without braces owns are passages of their own.
theorem passages_of_turns {found ds : List Draft} (h : Turns (openRound deeper) found s ds t) :
    ∃ ps, Passages deeper s ps t ∧ (∀ p ∈ ps, p.isOwned = true) ∧
      ds = found ++ ps.flatMap Passage.nodes ∧ t.Closes := by
  induction h with
  | done hround =>
      rcases openRound_cases hround with ⟨hr, rfl, hcloses⟩ | ⟨-, -, ds, -, hr⟩
      · cases hr
        exact ⟨[], .nil _, nofun, by simp, hcloses⟩
      · cases hr
  | again hround _ ih =>
      rcases openRound_cases hround with ⟨hr, -, -⟩ | ⟨hrest, hkeyed, ds, hds, hr⟩
      · cases hr
      · cases hr
        obtain ⟨ps, hps, howned, hnodes, hcloses⟩ := ih
        have hfirst := (passage_of_not_opens (opens_of_not_keyed hkeyed)).trans (bind_of_ok hds)
        rw [hkeyed] at hfirst
        refine ⟨_ :: ps, .cons hrest hfirst hps, List.forall_mem_cons.2 ⟨rfl, howned⟩, ?_, hcloses⟩
        rw [hnodes, List.flatMap_cons, List.append_assoc]
        rfl

theorem openStatements_passages {ds : List Draft} (h : openStatements deeper s = .ok (ds, t)) :
    ∃ ps, Passages deeper s ps t ∧ (∀ p ∈ ps, p.isOwned = true) ∧
      ds = ps.flatMap Passage.nodes ∧ t.Closes := by
  simpa using passages_of_turns (turns_of_iterate h)

theorem ne_nil_of_opens (hs : s.opens = true) : s.rest ≠ [] := by
  intro hnil
  simp [Input.opens, Input.keyed, hnil] at hs

-- A declaration of a namespace, with the passages that it takes, in front of those behind it.
theorem namespaceDeclaration_passages (hs : s.opens = true) {d : Draft}
    (h : namespaceDeclaration deeper s = .ok (d, t)) :
    ∃ ps, Passages deeper s ps t ∧ ∀ rest u, Passages deeper t rest u →
      Passage.assemble (ps ++ rest) = d :: Passage.assemble rest := by
  obtain ⟨first, a, hfirst, h⟩ := bind_eq_ok h
  obtain ⟨image, b, himage, h⟩ := bind_eq_ok h
  obtain ⟨brace, c, hbrace, h⟩ := bind_eq_ok h
  have hpassage : passage deeper s = _ := passage_of_opens hs
  rw [bind_of_ok hfirst, bind_of_ok himage, bind_of_ok hbrace] at hpassage
  cases brace with
  | some brace =>
      obtain ⟨⟨statements, last⟩, e, hbody, h⟩ := bind_eq_ok h
      cases h
      have hp := hpassage.trans (bind_of_ok hbody)
      exact ⟨_, .cons (ne_nil_of_opens hs) hp (.nil _), fun rest u _ => rfl⟩
  | none =>
      obtain ⟨mark, e, hmark, h⟩ := bind_eq_ok h
      obtain ⟨statements, f, hstatements, h⟩ := bind_eq_ok h
      cases h
      have hp := hpassage.trans (bind_of_ok hmark)
      obtain ⟨owned, howned, hall, rfl, hcloses⟩ := openStatements_passages hstatements
      refine ⟨_, .cons (ne_nil_of_opens hs) hp howned, fun rest u hrest => ?_⟩
      rw [List.cons_append, Passage.assemble, Passage.grouped, Passage.grouped_append hall,
        Passage.assemble, grouped_of_closes hcloses hrest, List.append_nil]
      rfl

theorem passages_of_file_turns {found ds : List Draft} (h : Turns (fileRound deeper) found s ds t) :
    ∃ ps, Passages deeper s ps t ∧ t.rest = [] ∧ ds = found ++ Passage.assemble ps := by
  induction h with
  | done hround =>
      rcases fileRound_cases hround with
        ⟨hr, rfl, hrest⟩ | ⟨-, d, -, hr⟩ | ⟨-, -, ds, -, hr⟩
      · cases hr
        exact ⟨[], .nil _, hrest, by simp [Passage.assemble, Passage.grouped]⟩
      · cases hr
      · cases hr
  | again hround _ ih =>
      rcases fileRound_cases hround with
        ⟨hr, -, -⟩ | ⟨hopens, d, hd, hr⟩ | ⟨hrest, hopens, ds, hds, hr⟩
      · cases hr
      · cases hr
        obtain ⟨ps, hps, hend, rfl⟩ := ih
        obtain ⟨qs, hqs, hassemble⟩ := namespaceDeclaration_passages hopens hd
        refine ⟨qs ++ ps, hqs.append hps, hend, ?_⟩
        rw [hassemble ps _ hps, List.append_assoc]
        rfl
      · cases hr
        obtain ⟨ps, hps, hend, rfl⟩ := ih
        have hfirst := (passage_of_not_opens hopens).trans (bind_of_ok hds)
        refine ⟨_, .cons hrest hfirst hps, hend, ?_⟩
        rw [Passage.assemble_statement, List.append_assoc]

section Heads

theorem stays_eq {α : Type} {p : Parser α} {a : α} (hp : Stays p) (h : p s = .ok (a, t)) :
    t.stop = s.stop := by
  have hs := hp s
  rw [h] at hs
  exact hs

theorem passage_stays (levels : Nat) : Stays (passage (parse levels)) := by
  have image : Parallel (parse levels) (parse levels) namespaceImage namespaceImage :=
    (Parallel.ahead 0).bind fun _ => .ite (.pure _) (Parallel.qualifiedName.bind fun _ => .pure _)
  have whole : Parallel (parse levels) (parse levels) (passage (parse levels))
      (passage (parse levels)) := by
    refine (Parallel.ahead 0).bind fun _ => (Parallel.ahead 1).bind fun _ => .ite ?_
      (Parallel.topStatement.bind fun _ => .pure _)
    refine (Parallel.expect _ _).bind fun _ => image.bind fun _ =>
      (Parallel.accept _).bind fun brace => ?_
    cases brace with
    | some _ => exact (Parallel.through _ Parallel.topStatement).bind fun _ => .pure _
    | none => exact Parallel.terminator.bind fun _ => .pure _
  exact whole.stays (parse_stays levels)

theorem Passages.stop {levels : Nat} (h : Passages (parse levels) s ps t) : t.stop = s.stop := by
  induction h with
  | nil => rfl
  | cons _ first _ ih => exact ih.trans (stays_eq (passage_stays levels) first)

theorem accept_of_ahead {kind : TokenKind} (h : (s.rest[0]?).map (·.kind) = some kind) :
    ∃ t, accept kind s = .ok (some s.index, t) := by
  obtain ⟨index, rest⟩ := s
  cases rest with
  | nil => cases h
  | cons m rest =>
      refine ⟨⟨index + 1, rest⟩, ?_⟩
      rw [accept, ahead_bind, if_pos h]
      rfl

-- The name in a head consists of one word or more.
theorem words_of_head {levels first mark : Nat} {image : Image}
    (h : passage (parse levels) s = .ok (.head first image mark, t)) :
    ∃ bare last, image = .tokens bare last ∧ bare ≤ last ∧ last < s.stop := by
  cases hopens : s.opens with
  | false =>
      rw [passage_of_not_opens hopens] at h
      obtain ⟨ds, a, -, h⟩ := bind_eq_ok h
      cases h
  | true =>
      rw [passage_of_opens hopens] at h
      obtain ⟨_, a, hfirst, h⟩ := bind_eq_ok h
      obtain ⟨_, b, himage, h⟩ := bind_eq_ok h
      obtain ⟨brace, c, hbrace, h⟩ := bind_eq_ok h
      cases brace with
      | some _ =>
          obtain ⟨r, d, -, h⟩ := bind_eq_ok h
          cases h
      | none =>
          obtain ⟨_, d, -, h⟩ := bind_eq_ok h
          cases h
          rw [namespaceImage, ahead_bind] at himage
          split at himage
          · -- a brace would have been accepted
            rename_i hleft
            cases himage
            obtain ⟨e, he⟩ := accept_of_ahead hleft
            cases he.symm.trans hbrace
          · obtain ⟨name, e, hname, himage⟩ := bind_eq_ok himage
            cases himage
            have hwords : Run 0 1 qualifiedName a _ := Puts.qualifiedName_words
            obtain ⟨-, hstop, _, bare, last, rfl, -, hle, hlt⟩ := hwords.of_ok hname
            have hkept : Run 0 1 (expectKeyword .kwNamespace) s _ := Run.expect
            have hindex := Nat.le_add_right b.index b.rest.length
            refine ⟨bare, last, rfl, hle, ?_⟩
            rw [← (hkept.of_ok hfirst).2.1, ← hstop]
            exact Nat.lt_of_lt_of_le hlt hindex

end Heads

-- A relative statement is not empty.
theorem nodes_of_relative {levels : Nat} {nodes : List Draft}
    (h : passage (parse levels) s = .ok (.statement true nodes, t)) : nodes ≠ [] := by
  cases hopens : s.opens with
  | true => cases isStatement_of_opens hopens h
  | false =>
      rw [passage_of_not_opens hopens] at h
      obtain ⟨ds, a, hds, h⟩ := bind_eq_ok h
      obtain ⟨hp, -⟩ := Prod.mk.inj (Except.ok.inj h)
      obtain ⟨hkeyed, rfl⟩ := Passage.statement.inj hp
      have hkind : (s.rest[0]?).map (·.kind) = some (.keyword .kwNamespace) := by
        simpa [Input.keyed] using hkeyed
      rw [topStatement, ahead_bind, hkind] at hds
      obtain ⟨found, b, hfound, hds⟩ := bind_eq_ok hds
      cases levels with
      | zero => cases hfound
      | succ levels =>
          rw [show parse (levels + 1) .statement = statement (parse levels) from rfl, statement,
            ahead_bind, hkind] at hfound
          obtain ⟨d, c, -, hfound⟩ := bind_eq_ok hfound
          cases hfound
          cases hds
          nofun

theorem Passages.nodes_ne_nil {levels : Nat} (h : Passages (parse levels) s ps t) :
    ∀ found, .statement true found ∈ ps → found ≠ [] := by
  induction h with
  | nil => nofun
  | cons _ first _ ih =>
      intro found hfound
      rcases List.mem_cons.1 hfound with rfl | hfound
      · exact nodes_of_relative first
      · exact ih found hfound

-- A file consists of passages through its end, and its nodes are put together from theirs.
theorem file_passages {ds : List Draft} (h : file deeper s = .ok (ds, t)) :
    ∃ ps, Passages deeper s ps t ∧ t.rest = [] ∧ ds = Passage.assemble ps := by
  simpa using passages_of_file_turns (turns_of_iterate h)

end Runs

end Census.Grammar
