import Census.Proofs.Grammar.Documentation
import Census.Proofs.Script.Schema
import Census.Proofs.Token.Documentation
import Mathlib.Data.List.Basic

namespace Census

open Grammar

namespace Content

-- Whether a property or a constant is a later one of its list. Those stand behind a comma, and the
-- first one never does.
def isFollowing (tokens : List Token) (content : Content) : Bool :=
  content.kind.isListed && ((Token.before tokens content.span.start).find? (·.kind.isSignificant)).any
    (·.kind = .symbol .comma)

-- The doc comment that belongs to a node: the one that waits at the token where its span starts.
def docToken? (tokens : List Token) (content : Content) : Option Token :=
  if content.kind.isDocumented && !content.isFollowing tokens then
    Token.waitingDoc? (Token.before tokens content.span.start)
  else none

end Content

namespace Script

variable {source : String} {k l : Nat}

-- The doc comment that waits in front of a significant token.
def docTokenAt (source : String) (k : Nat) : Option Token :=
  Token.waitingDoc? (Token.before (tokenize source).1 ((ofSource source).spanOf k).start)

theorem starts_ordered (source : String) :
    (tokenize source).1.Pairwise fun s t => s.span.start < t.span.start :=
  (tokenize_ordered source).imp_of_mem fun hs _ hlt =>
    Position.lt_of_le_of_lt (tokenize_behind _ hs).2 hlt

theorem starts_apart (source : String) :
    (tokenize source).1.Pairwise fun s t => s.span.start ≠ t.span.start := by
  refine (starts_ordered source).imp fun {s t} hlt heq => ?_
  rw [heq] at hlt
  exact Position.lt_irrefl _ hlt

-- The tokens in front of a significant one, and what the script knows of them.
theorem front_of_lt (h : k < (significantTokens source).length) : ∃ front after,
    (tokenize source).1 = front ++ (significantTokens source)[k] :: after ∧
      Token.before (tokenize source).1 ((ofSource source).spanOf k).start = front.reverse ∧
      front.filter (·.kind.isSignificant) = (significantTokens source).take k ∧
      (ofSource source).docOf k = (Token.waitingDoc? front.reverse).map (·.text) := by
  obtain ⟨lexeme, hlexeme, htoken⟩ := lexeme_at h
  have hget : (Lexeme.ofTokensFrom ((Token.waitingDoc? []).map (·.text)) (tokenize source).1)[k]? =
      some lexeme := by
    rw [← hlexeme, ← Array.getElem?_toList]
    rfl
  obtain ⟨front, after, htokens, hlength, hdoc⟩ := Lexeme.of_getElem? hget
  rw [htoken] at htokens
  refine ⟨front, after, htokens, ?_, ?_, ?_⟩
  · rw [spanOf_eq h]
    have hapart := starts_apart source
    rw [htokens] at hapart ⊢
    exact Token.before_eq hapart
  · rw [significantTokens, htokens, List.filter_append, List.take_left' hlength]
  · rw [docOf, hlexeme, Option.bind_some, hdoc, List.append_nil]

theorem docOf_eq_docTokenAt (h : k < (significantTokens source).length) :
    (ofSource source).docOf k = (docTokenAt source k).map (·.text) := by
  obtain ⟨front, after, -, hbefore, -, hdoc⟩ := front_of_lt h
  rw [hdoc, docTokenAt, hbefore]

-- The doc comment that waits at a token stands in front of it,
theorem docTokenAt_lt {t : Token} (hk : k < (significantTokens source).length)
    (ht : docTokenAt source k = some t) : t.span.start < (significantTokens source)[k].span.start := by
  obtain ⟨front, after, htokens, hfront, -, -⟩ := front_of_lt hk
  rw [docTokenAt, hfront] at ht
  obtain ⟨gap, rest, hback, -⟩ := Token.waitingDoc?_eq_some ht
  have hmem : t ∈ front := List.mem_reverse.1 (hback ▸ List.mem_append_right gap List.mem_cons_self)
  have hordered := starts_ordered source
  rw [htokens, List.pairwise_append] at hordered
  exact hordered.2.2 t hmem _ List.mem_cons_self

-- and behind the significant tokens before that.
theorem lt_docTokenAt {t : Token} (hkl : k < l) (hl : l < (significantTokens source).length)
    (ht : docTokenAt source l = some t) : (significantTokens source)[k].span.start < t.span.start := by
  obtain ⟨front, after, htokens, hfront, hfilter, -⟩ := front_of_lt hl
  rw [docTokenAt, hfront] at ht
  obtain ⟨gap, rest, hback, hgap⟩ := Token.waitingDoc?_eq_some ht
  have htaken : (significantTokens source)[k] ∈ front.filter (·.kind.isSignificant) := by
    rw [hfilter]
    exact List.mem_take_iff_getElem.2 ⟨k, by omega, rfl⟩
  obtain ⟨hmem, hsignificant⟩ := List.mem_filter.1 htaken
  have hrest : (significantTokens source)[k] ∈ rest := by
    have hback' : front.reverse = gap ++ [t] ++ rest := by rw [hback, List.append_assoc]; rfl
    rcases List.mem_append.1 (hback' ▸ List.mem_reverse.2 hmem) with hgapped | hrest
    · rw [hgap _ hgapped] at hsignificant
      cases hsignificant
    · exact hrest
  have hordered := starts_ordered source
  rw [htokens, List.pairwise_append] at hordered
  have hreversed := List.pairwise_reverse.2 hordered.1
  rw [hback, List.pairwise_append, List.pairwise_cons] at hreversed
  exact hreversed.2.1.1 _ hrest

-- Thus no doc comment waits at two tokens.
theorem docTokenAt_ne {s t : Token} (hkl : k < l) (hl : l < (significantTokens source).length)
    (hs : docTokenAt source k = some s) (ht : docTokenAt source l = some t) : s ≠ t := by
  rintro rfl
  have hlt := Position.lt_trans (docTokenAt_lt (Nat.lt_trans hkl hl) hs) (lt_docTokenAt hkl hl ht)
  exact Position.lt_irrefl _ hlt

-- Whether a comma stands in front of a significant token.
theorem behind_comma (h : k < (significantTokens source).length) :
    ((Token.before (tokenize source).1 ((ofSource source).spanOf k).start).find?
      (·.kind.isSignificant)).any (·.kind = .symbol .comma) = true ↔
        ∃ m, m + 1 = k ∧ kindAt (ofSource source).terminals m = some (.symbol .comma) := by
  obtain ⟨front, after, -, hbefore, hfilter, -⟩ := front_of_lt h
  have hlast : front.reverse.find? (·.kind.isSignificant) = ((significantTokens source).take k).getLast? := by
    rw [← hfilter, ← List.head?_filter, List.filter_reverse, List.head?_reverse]
  rw [hbefore, hlast]
  cases k with
  | zero => simp
  | succ m =>
      have hm : (significantTokens source)[m]? = some (significantTokens source)[m] :=
        List.getElem?_eq_getElem (Nat.lt_of_succ_lt h)
      simp [List.getLast?_take, kindAt_ofSource, hm]

section Drafts

variable {o : Outline} {drafts : List Draft} (h : Documents (ofSource source).terminals o)
  (hlt : o.first < (significantTokens source).length)
include h hlt

-- The doc comment of a node is the one that its draft names.
theorem docToken?_content : ((ofSource source).content o).docToken? (tokenize source).1 =
    o.doc.bind (docTokenAt source) := by
  have hcomma := behind_comma hlt
  simp only [Content.docToken?, Content.isFollowing, content]
  cases h with
  | never kind doc => simp [kind, doc]
  | always kind doc =>
      simp only [Bool.and_eq_true, Bool.not_eq_true'] at kind
      simp [kind, doc, docTokenAt]
  | leading kind doc fresh =>
      have hno := mt hcomma.1 fun ⟨m, hm, hkind⟩ => fresh m hm hkind
      simp [NodeKind.isDocumented_of_isListed kind, kind, doc, hno, docTokenAt]
  | following kind doc comma =>
      have hyes := hcomma.2 comma
      simp [kind, doc, hyes]

theorem doc_content : ((ofSource source).content o).doc =
    (((ofSource source).content o).docToken? (tokenize source).1).map (·.text) := by
  rw [docToken?_content h hlt, content]
  rcases h.doc_eq with hdoc | hdoc
  · rw [hdoc]
    rfl
  · rw [hdoc, Option.bind_some, Option.bind_some, docOf_eq_docTokenAt hlt]

end Drafts

section Roots

variable (script : Script) (drafts : List Draft)

-- What the nodes of a tree say: the root what all files say, the others what the drafts say.
theorem root_contents : (script.root drafts).subtrees.map (·.label.content) =
    (script.root drafts).label.content ::
      (drafts.flatMap Tree.subtrees).map fun d => script.content d.label := by
  have hlabels (node : Node) : node.subtrees.map (·.label.content) = node.said.subtrees.map (·.label) := by
    rw [Node.said, Tree.subtrees_map, List.map_map]
    exact List.map_congr_left fun part _ => (Tree.label_map _ part).symm
  have hshown (d : Draft) : (script.shown d).subtrees.map (·.label) =
      d.subtrees.map fun part => script.content part.label := by
    rw [shown, Tree.subtrees_map, List.map_map]
    exact List.map_congr_left fun part _ => Tree.label_map _ part
  rw [hlabels, root_said, Tree.subtrees_mk, List.map_cons, List.map_flatMap, List.flatMap_map,
    List.map_flatMap]
  simp only [hshown]
  rfl

theorem root_docTokens (source : String) (hdrafts : ∀ d ∈ drafts.flatMap Tree.subtrees,
    Documents (ofSource source).terminals d.label ∧ d.label.first < (significantTokens source).length) :
    (((ofSource source).root drafts).subtrees.filterMap fun node =>
      node.label.content.docToken? (tokenize source).1) =
        (Draft.docs drafts).filterMap (docTokenAt source) := by
  have hdocs : ∀ d ∈ drafts.flatMap Tree.subtrees,
      ((ofSource source).content d.label).docToken? (tokenize source).1 =
        d.label.doc.bind (docTokenAt source) :=
    fun d hd => docToken?_content (hdrafts d hd).1 (hdrafts d hd).2
  calc ((ofSource source).root drafts).subtrees.filterMap _
      = (((ofSource source).root drafts).subtrees.map (·.label.content)).filterMap
          (Content.docToken? (tokenize source).1) := by rw [List.filterMap_map]; rfl
    _ = (drafts.flatMap Tree.subtrees).filterMap fun d =>
          ((ofSource source).content d.label).docToken? (tokenize source).1 := by
        rw [root_contents, List.filterMap_cons_none rfl, List.filterMap_map]
        rfl
    _ = (Draft.docs drafts).filterMap (docTokenAt source) := by
        rw [List.filterMap_congr hdocs, Draft.docs, List.filterMap_filterMap]

end Roots

-- All drafts of a file are well-formed, and they reach over tokens of the script.
theorem formed_of_parseFile {limit : Nat} {drafts : List Draft}
    (h : parseFile limit (ofSource source).terminals = .ok drafts) :
    ∀ d ∈ drafts.flatMap Tree.subtrees, (∃ b, Formed (ofSource source).terminals b d) ∧
      d.label.first ≤ d.label.last ∧ d.label.last < (significantTokens source).length := by
  obtain ⟨hrow, -⟩ := parseFile_row h
  rw [terminals_length] at hrow
  intro d hd
  obtain ⟨top, htop, hbelow⟩ := List.mem_flatMap.1 hd
  have hformed := Tree.subtrees_induction (parseFile_sound h top htop).formed
    (fun _ hparent => hparent.child) d hbelow
  exact ⟨⟨_, hformed⟩, hrow.mem_subtrees_bounds d hd⟩

end Script

-- Every declaration has the last doc comment in front of it, but for the later ones of a list, and
-- nothing else has one. Hence no doc comment belongs to two nodes.
theorem parse_documentation {source : String} {limit : Nat} {root : Node}
    (h : parse source limit = .ok root) :
    (∀ node ∈ root.subtrees,
      Node.doc node = (node.label.content.docToken? (tokenize source).1).map (·.text) ∧
      ((Node.kind node).isDocumented = true →
        ∃ t ∈ significantTokens source, t.span.start = (Node.span node).start)) ∧
    (root.subtrees.filterMap fun node => node.label.content.docToken? (tokenize source).1).Nodup := by
  obtain ⟨drafts, hdrafts, rfl⟩ := Script.parse_ok h
  have hsound := parseFile_sound hdrafts
  obtain ⟨hrow, -⟩ := parseFile_row hdrafts
  rw [Script.terminals_length] at hrow
  have hall : ∀ d ∈ drafts.flatMap Tree.subtrees,
      Documents (Script.ofSource source).terminals d.label ∧
        d.label.first < (significantTokens source).length := by
    intro d hd
    obtain ⟨⟨_, hformed⟩, hle, hlast⟩ := Script.formed_of_parseFile hdrafts d hd
    exact ⟨hformed.own.1.doc, Nat.lt_of_le_of_lt hle hlast⟩
  refine ⟨fun node hnode => ?_, ?_⟩
  · have hmem := List.mem_map_of_mem (f := (·.label.content)) hnode
    rw [Script.root_contents] at hmem
    rcases List.mem_cons.1 hmem with hroot | hdraft
    · rw [Node.doc, Node.kind, Node.span, hroot]
      exact ⟨rfl, nofun⟩
    · obtain ⟨d, hd, hcontent⟩ := List.mem_map.1 hdraft
      obtain ⟨hdocuments, hlt⟩ := hall d hd
      rw [Node.doc, Node.kind, Node.span, ← hcontent]
      refine ⟨Script.doc_content hdocuments hlt, fun _ => ⟨_, List.getElem_mem hlt, ?_⟩⟩
      rw [Script.content, Script.spanOf_eq hlt]
  · have hrising := hrow.rising fun d hd => (hsound d hd).formed
    rw [Script.root_docTokens drafts source hall, List.Nodup, List.pairwise_filterMap]
    refine hrising.ordered.imp_of_mem fun {k l} _ hl hkl s hs t ht => ?_
    exact Script.docTokenAt_ne hkl (hrising.bounds l hl).2 hs ht

-- The doc comment of a list belongs to its first property, over a plain comment and a modifier, and
-- the one in front of its second property belongs to none.
theorem parse_documentation_list : ∃ root,
    parse "<?php /** A */ class A { /** x */ /* x */ var $x, /** y */ $y; }" 256 = .ok root ∧
      root.subtrees.filterMap Node.doc = ["/** A */", "/** x */"] ∧
      (root.subtrees.filterMap fun node => node.label.content.docToken? (tokenize
        "<?php /** A */ class A { /** x */ /* x */ var $x, /** y */ $y; }").1).Nodup := by
  have hdocs : (parse "<?php /** A */ class A { /** x */ /* x */ var $x, /** y */ $y; }"
      256).toOption.map (fun root => root.subtrees.filterMap Node.doc) =
        some ["/** A */", "/** x */"] := by decide +kernel
  cases h : parse "<?php /** A */ class A { /** x */ /* x */ var $x, /** y */ $y; }" 256 with
  | error e => simp [h, Except.toOption] at hdocs
  | ok root =>
      rw [h] at hdocs
      exact ⟨root, rfl, Option.some.inj hdocs, (parse_documentation h).2⟩

end Census
