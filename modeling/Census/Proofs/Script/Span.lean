import Census.Proofs.Grammar.Builds
import Census.Proofs.Script.Nesting
import Census.Proofs.Tree.Subtrees

namespace Census

open Grammar

namespace Node

-- What a tree says, without the numbers of its nodes.
def said (node : Node) : Tree Content := node.map Label.content

def Holds (node part : Node) : Prop :=
  node.span.start ≤ part.span.start ∧ part.span.stop ≤ node.span.stop

-- Whether a node is a property whose first part is the given type, or another copy of it.
def Typed (hint node : Node) : Prop :=
  node.kind = .property ∧ ∃ own, node.children.head? = some own ∧ said own = said hint

-- A later variable of a property declaration, which repeats the type that stands in front of
-- the first variable. All properties between the two repeat it as well.
structure Repeats (older : List Node) (node hint : Node) : Prop where
  property : node.kind = .property
  type : hint.kind = .typeHint
  first : node.children.head? = some hint
  behind : hint.span.stop < node.span.start
  lender : ∃ before lender between, older = before ++ lender :: between ∧
    (∀ n ∈ lender :: between, hint.Typed n) ∧ lender.Holds hint

-- How a node of the tree of a source lies among the tokens and among the other nodes.
structure Placed (tokens : List Token) (root node : Node) : Prop where
  forward : node.span.start ≤ node.span.stop
  bounded : ((∃ t ∈ tokens, t.span.start = node.span.start) ∧
      ∃ t ∈ tokens, t.span.stop = node.span.stop) ∨
    node = root ∧ root.children = [] ∧ ∀ t ∈ tokens, t.kind = .symbol .semicolon ∨ t.kind = .closeTag
  apart : node.children.Pairwise fun a b : Node => a.span.stop < b.span.start
  inside : ∀ part ∈ node.children, node.Holds part ∨ ∃ parent ∈ root.subtrees,
    ∃ older later, parent.children = older ++ node :: later ∧ Repeats older node part

end Node

namespace Script

variable {source : String} {i j : Nat}

theorem lexeme_at (h : i < (significantTokens source).length) :
    ∃ lexeme, (ofSource source).lexemes[i]? = some lexeme ∧
      lexeme.token = (significantTokens source)[i] := by
  have hsome : ((ofSource source).lexemes.toList.map (·.token))[i]? =
      some (significantTokens source)[i] := by
    rw [lexemes_ofSource, List.getElem?_eq_getElem h]
  rw [List.getElem?_map, Array.getElem?_toList] at hsome
  exact Option.map_eq_some_iff.1 hsome

theorem spanOf_eq (h : i < (significantTokens source).length) :
    (ofSource source).spanOf i = (significantTokens source)[i].span := by
  obtain ⟨lexeme, hl, ht⟩ := lexeme_at h
  rw [spanOf, hl, ← ht]
  rfl

theorem text_ofSource (h : i < (significantTokens source).length) :
    (ofSource source).text i = (significantTokens source)[i].text := by
  obtain ⟨lexeme, hl, ht⟩ := lexeme_at h
  rw [text, hl, ← ht]
  rfl

-- What the grammar sees of the significant tokens.
theorem kindAt_ofSource (source : String) (i : Nat) :
    kindAt (ofSource source).terminals i = (significantTokens source)[i]?.map (·.kind) := by
  rw [kindAt, terminals_ofSource, List.getElem?_map, Option.map_map]
  rfl

theorem token_of_kindAt {kind : TokenKind} (h : kindAt (ofSource source).terminals i = some kind) :
    ∃ t, (significantTokens source)[i]? = some t ∧ t.kind = kind := by
  rw [kindAt_ofSource] at h
  exact Option.map_eq_some_iff.1 h

theorem stop_lt_start (hij : i < j) (hj : j < (significantTokens source).length) :
    ((ofSource source).spanOf i).stop < ((ofSource source).spanOf j).start := by
  rw [spanOf_eq (Nat.lt_trans hij hj), spanOf_eq hj]
  exact List.pairwise_iff_getElem.1 (significantTokens_ordered source) i j _ hj hij

theorem start_le_stop_self (hi : i < (significantTokens source).length) :
    ((ofSource source).spanOf i).start ≤ ((ofSource source).spanOf i).stop := by
  rw [spanOf_eq hi]
  exact significantTokens_span source _ (List.getElem_mem _)

theorem start_le_start (hij : i ≤ j) (hj : j < (significantTokens source).length) :
    ((ofSource source).spanOf i).start ≤ ((ofSource source).spanOf j).start := by
  rcases Nat.lt_or_eq_of_le hij with hij | rfl
  · exact Position.le_trans (start_le_stop_self (Nat.lt_trans hij hj))
      (Position.le_of_lt (stop_lt_start hij hj))
  · exact Position.le_rfl

theorem stop_le_stop (hij : i ≤ j) (hj : j < (significantTokens source).length) :
    ((ofSource source).spanOf i).stop ≤ ((ofSource source).spanOf j).stop := by
  rcases Nat.lt_or_eq_of_le hij with hij | rfl
  · exact Position.le_trans (Position.le_of_lt (stop_lt_start hij hj)) (start_le_stop_self hj)
  · exact Position.le_rfl

theorem start_le_stop (hij : i ≤ j) (hj : j < (significantTokens source).length) :
    ((ofSource source).spanOf i).start ≤ ((ofSource source).spanOf j).stop :=
  Position.le_trans (start_le_start hij hj) (start_le_stop_self hj)

-- What a draft says once texts and positions are looked up.
def shown (script : Script) (draft : Draft) : Tree Content := draft.map script.content

section Shown

variable {script : Script} {node : Node} {d : Draft}

theorem span_of_said (h : node.said = script.shown d) :
    node.span = ⟨(script.spanOf d.first).start, (script.spanOf d.last).stop⟩ := by
  have hlabel := congrArg (·.label.span) h
  simp only [Node.said, shown, Tree.label_map] at hlabel
  exact hlabel

theorem kind_of_said (h : node.said = script.shown d) : node.kind = d.label.kind := by
  have hlabel := congrArg (·.label.kind) h
  simp only [Node.said, shown, Tree.label_map] at hlabel
  exact hlabel

theorem image_of_said (h : node.said = script.shown d) : node.image = script.image d.label.image := by
  have hlabel := congrArg (·.label.image) h
  simp only [Node.said, shown, Tree.label_map] at hlabel
  exact hlabel

theorem doc_of_said (h : node.said = script.shown d) : node.doc = d.label.doc.bind script.docOf := by
  have hlabel := congrArg (·.label.doc) h
  simp only [Node.said, shown, Tree.label_map] at hlabel
  exact hlabel

theorem children_of_said (h : node.said = script.shown d) :
    node.children.map Node.said = d.children.map script.shown := by
  have hchildren := congrArg Tree.children h
  simp only [Node.said, shown, Tree.children_map] at hchildren
  exact hchildren

theorem root_said (script : Script) (drafts : List Draft) : (script.root drafts).said =
    ⟨⟨.sourceFile, script.fileSpan (drafts.map script.shown), "", .empty, none⟩,
      drafts.map script.shown⟩ :=
  (Tree.map_number (h := fun a => a) (fun _ _ => rfl) _ 0).trans (Tree.map_id _)

end Shown

-- A node whose children show a row of drafts.
def Laid (source : String) (node : Node) : Prop :=
  ∃ lo hi drafts, hi ≤ (significantTokens source).length ∧ Row [] lo hi drafts ∧
    node.children.map Node.said = drafts.map (ofSource source).shown

-- A child of such a node, with its draft and the drafts before and behind it.
theorem Laid.at_child {node child : Node} (h : Laid source node) {older later : List Node}
    (hc : node.children = older ++ child :: later) :
    ∃ lo mid hi before d behind, hi ≤ (significantTokens source).length ∧
      Row [] lo mid before ∧ Row before mid hi (d :: behind) ∧
      child.said = (ofSource source).shown d ∧
      older.map Node.said = before.map (ofSource source).shown := by
  obtain ⟨lo, hi, drafts, hhi, hrow, hsaid⟩ := h
  rw [hc, List.map_append, List.map_cons] at hsaid
  obtain ⟨before, rest, rfl, hbefore, hrest⟩ := List.map_eq_append_iff.1 hsaid.symm
  obtain ⟨d, behind, rfl, hd, -⟩ := List.map_eq_cons_iff.1 hrest
  obtain ⟨mid, hfront, hrow⟩ := hrow.split
  exact ⟨lo, mid, hi, before, d, behind, hhi, hfront, hrow, hd.symm, hbefore.symm⟩

theorem Laid.child {node child : Node} (h : Laid source node) (hc : child ∈ node.children) :
    Laid source child := by
  obtain ⟨older, later, hc⟩ := List.append_of_mem hc
  obtain ⟨lo, mid, hi, before, d, behind, hhi, -, hrow, hsaid, -⟩ := h.at_child hc
  obtain ⟨⟨lo', hi', hhi', hparts⟩, -⟩ := hrow.parts
  exact ⟨lo', hi', d.children, Nat.le_trans hhi' hhi, hparts, children_of_said hsaid⟩

theorem Laid.apart {node : Node} (h : Laid source node) :
    node.children.Pairwise fun a b : Node => a.span.stop < b.span.start := by
  obtain ⟨lo, hi, drafts, hhi, hrow, hsaid⟩ := h
  have hdrafts : (drafts.map (ofSource source).shown).Pairwise fun a b =>
      a.label.span.stop < b.label.span.start := by
    refine List.pairwise_map.2 (hrow.pairwise.imp_of_mem fun {a b} _ hb hlt => ?_)
    obtain ⟨-, hle, hlast⟩ := hrow.mem_bounds hb
    simp only [shown, Tree.label_map]
    exact stop_lt_start hlt (Nat.lt_of_lt_of_le (Nat.lt_of_le_of_lt hle hlast) hhi)
  rw [← hsaid, List.pairwise_map] at hdrafts
  refine hdrafts.imp fun {a b} hlt => ?_
  simp only [Node.said, Tree.label_map] at hlt
  exact hlt

-- A node that shows a draft begins and ends with tokens.
theorem bounded_of_said {node : Node} {d : Draft} (h : node.said = (ofSource source).shown d)
    (hle : d.first ≤ d.last) (hlt : d.last < (significantTokens source).length) :
    node.span.start ≤ node.span.stop ∧
      (∃ t ∈ significantTokens source, t.span.start = node.span.start) ∧
      ∃ t ∈ significantTokens source, t.span.stop = node.span.stop := by
  rw [span_of_said h]
  refine ⟨start_le_stop hle hlt, ⟨_, List.getElem_mem (Nat.lt_of_le_of_lt hle hlt), ?_⟩,
    _, List.getElem_mem hlt, ?_⟩
  · rw [spanOf_eq (Nat.lt_of_le_of_lt hle hlt)]
  · rw [spanOf_eq hlt]

theorem holds_of_said {node part : Node} {d e : Draft} (h : node.said = (ofSource source).shown d)
    (h' : part.said = (ofSource source).shown e) (hfirst : d.first ≤ e.first)
    (he : e.first ≤ e.last) (hlast : e.last ≤ d.last)
    (hlt : d.last < (significantTokens source).length) : node.Holds part := by
  rw [Node.Holds, span_of_said h, span_of_said h']
  exact ⟨start_le_start hfirst (by omega), stop_le_stop hlast hlt⟩

-- Every node that shows one of several drafts with a type shows that type.
theorem typed_of_said {hint : Draft} {part : Node} (hp : part.said = (ofSource source).shown hint)
    {node : Node} {d : Draft} (h : node.said = (ofSource source).shown d) (hd : hint.Typed d) :
    part.Typed node := by
  obtain ⟨hkind, rest, hrest⟩ := hd
  have hchildren := children_of_said h
  rw [hrest] at hchildren
  obtain ⟨own, others, heq, hown, -⟩ := List.map_eq_cons_iff.1 hchildren
  exact ⟨(kind_of_said h).trans hkind, own, by rw [heq]; rfl, hown.trans hp.symm⟩

theorem Laid.inside {node child : Node} (h : Laid source node) {older later : List Node}
    (hc : node.children = older ++ child :: later) :
    ∀ part ∈ child.children, child.Holds part ∨ Node.Repeats older child part := by
  obtain ⟨lo, mid, hi, before, d, behind, hhi, hfront, hrow, hsaid, holder⟩ := h.at_child hc
  obtain ⟨hge, hle, hbehind⟩ := hrow.head_bounds
  have hhi' := hbehind.le
  obtain ⟨⟨lo', hi', -, hall⟩, hint, own, hparts, hlent, hown⟩ := hrow.parts
  have hchildren := children_of_said hsaid
  rw [hparts, List.map_append] at hchildren
  obtain ⟨hints, owns, heq, hhints, howns⟩ := List.map_eq_append_iff.1 hchildren
  intro part hpart
  rcases List.mem_append.1 (heq ▸ hpart) with hpart | hpart
  · cases hint with
    | none => simp_all
    | some hint =>
        obtain ⟨copy, rest, rfl, hcopy, hrest⟩ := List.map_eq_cons_iff.1 hhints
        obtain rfl := List.map_eq_nil_iff.1 hrest
        obtain rfl := List.mem_singleton.1 hpart
        have hl := hlent hint rfl
        obtain ⟨older', lender, between, rfl, htyped, hfirst, hlast⟩ := hl.lender
        rw [List.map_append] at holder
        obtain ⟨olds, news, rfl, -, hnews⟩ := List.map_eq_append_iff.1 holder
        have hgivers : ∀ n ∈ news, ∃ e ∈ lender :: between, n.said = (ofSource source).shown e :=
          fun n hn => by
            obtain ⟨e, he, hs⟩ := List.mem_map.1 (hnews ▸ List.mem_map_of_mem hn)
            exact ⟨e, he, hs.symm⟩
        obtain ⟨giver, betweens, rfl, hgiver, -⟩ := List.map_eq_cons_iff.1 hnews
        obtain ⟨-, -, hlt⟩ := hfront.mem_bounds (d := lender) (by simp)
        obtain ⟨-, hself, -⟩ := hall.mem_bounds (d := hint) (by simp [hparts])
        refine .inr ⟨(kind_of_said hsaid).trans hl.property, (kind_of_said hcopy).trans hl.type,
          by rw [heq]; rfl, ?_, olds, giver, betweens, rfl, fun n hn => ?_, ?_⟩
        · rw [span_of_said hsaid, span_of_said hcopy]
          exact stop_lt_start hl.earlier (by omega)
        · obtain ⟨e, he, hs⟩ := hgivers n hn
          exact typed_of_said hcopy hs (htyped e he)
        · exact holds_of_said hgiver hcopy hfirst hself hlast (by omega)
  · obtain ⟨e, he, hpe⟩ := List.mem_map.1 (howns ▸ List.mem_map_of_mem hpart)
    obtain ⟨hfirst, hself, hlast⟩ := hown e he
    exact .inl (holds_of_said hsaid hpe.symm hfirst hself hlast (by omega))

theorem through_of_le {s t : Span} (hstart : s.start ≤ t.start) (hstop : s.stop ≤ t.stop) :
    s.through t = ⟨s.start, t.stop⟩ := by
  simp only [Span.through, min, max, hstart, hstop, if_true]

-- A file with nodes reaches from the beginning of the first to the end of the last.
theorem root_span {drafts : List Draft} {d last : Draft}
    (h : Row [] 0 (significantTokens source).length drafts) (hd : drafts.head? = some d)
    (hlast : drafts.getLast? = some last) : ((ofSource source).root drafts).span =
      ⟨((ofSource source).spanOf d.first).start, ((ofSource source).spanOf last.last).stop⟩ := by
  have hdm := List.mem_of_mem_head? hd
  have hlm := List.mem_of_mem_getLast? hlast
  have hb := h.mem_bounds hlm
  have hsaid := congrArg (·.label.span) (root_said (ofSource source) drafts)
  simp only [Node.said, Tree.label_map] at hsaid
  refine hsaid.trans ?_
  simp only [fileSpan, List.head?_map, List.getLast?_map, hd, hlast, Option.map_some, shown,
    Tree.label_map]
  exact through_of_le (start_le_start (h.head_le hd hlm) (Nat.lt_of_le_of_lt hb.2.1 hb.2.2))
    (stop_le_stop (h.le_last hlast hdm) hb.2.2)

theorem first_le_stop {t : Token} (ht : t ∈ significantTokens source) :
    Position.first ≤ t.span.stop := by
  obtain ⟨hstart, hspan⟩ := tokenize_behind t (List.mem_filter.1 ht).1
  exact Position.le_trans hstart hspan

theorem first_le_lastPosition (source : String) :
    Position.first ≤ (ofSource source).lastPosition := by
  unfold lastPosition
  cases h : (ofSource source).lexemes.back? with
  | none => exact Position.le_rfl
  | some lexeme =>
      have hmem : lexeme.token ∈ significantTokens source := by
        rw [← lexemes_ofSource]
        exact List.mem_map_of_mem (Array.mem_toList_iff.2 (Array.mem_of_back? h))
      exact first_le_stop hmem

theorem kind_of_isMark (h : ∀ m ∈ (ofSource source).terminals, m.isMark = true) :
    ∀ t ∈ significantTokens source, t.kind = .symbol .semicolon ∨ t.kind = .closeTag := by
  intro t ht
  rw [← lexemes_ofSource] at ht
  obtain ⟨lexeme, hl, rfl⟩ := List.mem_map.1 ht
  simpa [Terminal.isMark] using h _ (List.mem_map_of_mem hl)

theorem root_children (script : Script) (drafts : List Draft) :
    (script.root drafts).children.map Node.said = drafts.map script.shown :=
  (Tree.children_map _ _).symm.trans (congrArg Tree.children (root_said script drafts))

theorem root_laid {drafts : List Draft} (h : Row [] 0 (significantTokens source).length drafts) :
    Laid source ((ofSource source).root drafts) :=
  ⟨0, _, drafts, Nat.le_refl _, h, root_children _ drafts⟩

theorem root_placed {drafts : List Draft} (h : Row [] 0 (significantTokens source).length drafts)
    (hmarks : drafts = [] → ∀ m ∈ (ofSource source).terminals, m.isMark = true) :
    ((ofSource source).root drafts).Placed (significantTokens source)
      ((ofSource source).root drafts) := by
  have hchildren := root_children (ofSource source) drafts
  cases hd : drafts.head? with
  | none =>
      obtain rfl := List.head?_eq_none_iff.1 hd
      have hempty := List.map_eq_nil_iff.1 hchildren
      have hspan : ((ofSource source).root []).span = ⟨.first, (ofSource source).lastPosition⟩ := rfl
      refine ⟨?_, .inr ⟨rfl, hempty, kind_of_isMark (hmarks rfl)⟩, (root_laid h).apart, ?_⟩
      · rw [hspan]
        exact first_le_lastPosition source
      · simp [hempty]
  | some d =>
      obtain ⟨last, hlast⟩ : ∃ last, drafts.getLast? = some last := by
        cases drafts with
        | nil => simp at hd
        | cons e ds => exact ⟨_, List.getLast?_cons⟩
      have hspan := root_span h hd hlast
      obtain ⟨-, hdle, hdlt⟩ := h.mem_bounds (List.mem_of_mem_head? hd)
      obtain ⟨-, hlle, hllt⟩ := h.mem_bounds (List.mem_of_mem_getLast? hlast)
      have hfirst := h.head_le hd (List.mem_of_mem_getLast? hlast)
      refine ⟨?_, .inl ⟨⟨_, List.getElem_mem (n := d.first) (by omega), ?_⟩,
        _, List.getElem_mem hllt, ?_⟩, (root_laid h).apart, fun part hpart => .inl ?_⟩
      · rw [hspan]
        exact start_le_stop (by omega) hllt
      · rw [hspan, spanOf_eq (by omega)]
      · rw [hspan, spanOf_eq hllt]
      · obtain ⟨e, he, hs⟩ := List.mem_map.1 (hchildren ▸ List.mem_map_of_mem hpart)
        obtain ⟨-, hele, helt⟩ := h.mem_bounds he
        rw [Node.Holds, hspan, span_of_said hs.symm]
        exact ⟨start_le_start (h.head_le hd he) (by omega),
          stop_le_stop (h.le_last hlast he) hllt⟩

theorem parse_ok {limit : Nat} {root : Node} {script : Script} (h : script.parse limit = .ok root) :
    ∃ drafts, parseFile limit script.terminals = .ok drafts ∧ root = script.root drafts := by
  unfold parse at h
  cases hf : parseFile limit script.terminals with
  | error e => simp [hf] at h
  | ok drafts =>
      rw [hf] at h
      cases he : script.ending with
      | some e => simp [he] at h
      | none =>
          simp only [he] at h
          exact ⟨drafts, rfl, (Except.ok.inj h).symm⟩

end Script

-- The nodes of a tree begin and end with tokens, stand in the order of the source, and hold
-- their children, but for the type that later variables of one declaration share. The root of
-- a file with nothing but empty statements reaches over the whole file instead.
theorem parse_spans_nested {source : String} {limit : Nat} {root : Node}
    (h : parse source limit = .ok root) :
    ∀ node ∈ root.subtrees, Node.Placed (significantTokens source) root node := by
  obtain ⟨drafts, hdrafts, rfl⟩ := Script.parse_ok h
  obtain ⟨hrow, hmarks⟩ := parseFile_row hdrafts
  rw [Script.terminals_length] at hrow
  have hlaid : ∀ node ∈ ((Script.ofSource source).root drafts).subtrees, Script.Laid source node :=
    Tree.subtrees_induction (Script.root_laid hrow) fun p hp c hc => hp.child hc
  intro node hnode
  rcases Tree.parent_of_mem_subtrees hnode with rfl | ⟨parent, hparent, hchild⟩
  · exact Script.root_placed hrow hmarks
  · obtain ⟨older, later, hc⟩ := List.append_of_mem hchild
    obtain ⟨lo, mid, hi, before, d, behind, hhi, -, hrow', hsaid, -⟩ := (hlaid parent hparent).at_child hc
    obtain ⟨-, hle, hbehind⟩ := hrow'.head_bounds
    obtain ⟨hforward, hbounded⟩ := Script.bounded_of_said hsaid hle (Nat.lt_of_lt_of_le hbehind.le hhi)
    refine ⟨hforward, .inl hbounded, (hlaid node hnode).apart, fun part hpart => ?_⟩
    exact ((hlaid parent hparent).inside hc part hpart).imp_right fun hrepeats =>
      ⟨parent, hparent, older, later, hc, hrepeats⟩

-- A typed declaration of two properties, the second of which repeats the type of the first.
theorem parse_spans_nested_properties : ∃ root,
    parse "<?php class A \x7b var int $a, $b; \x7d" 256 = .ok root ∧
      ∀ node ∈ root.subtrees,
        Node.Placed (significantTokens "<?php class A \x7b var int $a, $b; \x7d") root node := by
  have hparses : (parse "<?php class A \x7b var int $a, $b; \x7d" 256).toOption.isSome = true := by
    decide +kernel
  cases h : parse "<?php class A \x7b var int $a, $b; \x7d" 256 with
  | error e => simp [h, Except.toOption] at hparses
  | ok root => exact ⟨root, rfl, parse_spans_nested h⟩

-- A file of one empty statement: its root begins with the file, where no token begins.
theorem semicolon_root_begins_with_file : ∃ root, parse "<?php ;" 256 = .ok root ∧
    (Grammar.parse 256 .statement ⟨0, (Script.ofSource "<?php ;").terminals⟩).toOption =
      some (none, ⟨1, []⟩) ∧
    ¬ ∃ t ∈ significantTokens "<?php ;", t.span.start = root.span.start := by
  have hspan : (parse "<?php ;" 256).toOption.map Node.span = some ⟨⟨1, 1⟩, ⟨1, 7⟩⟩ := by
    decide +kernel
  have hstarts : ∀ t ∈ significantTokens "<?php ;", t.span.start = ⟨1, 7⟩ := by decide +kernel
  cases h : parse "<?php ;" 256 with
  | error e => simp [h, Except.toOption] at hspan
  | ok root =>
      refine ⟨root, rfl, by decide +kernel, ?_⟩
      rintro ⟨t, ht, hstart⟩
      simp only [h, Except.toOption, Option.map_some, Option.some.injEq] at hspan
      rw [hstarts t ht, hspan] at hstart
      exact absurd hstart (by decide)

end Census
