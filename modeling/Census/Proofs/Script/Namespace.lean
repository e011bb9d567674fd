import Census.Proofs.Grammar.Passage
import Census.Proofs.Grammar.ValueStatements
import Census.Proofs.Registry.Settled
import Census.Proofs.Script.Image

namespace Census

open Grammar

namespace Survey

variable {mode : AnnotationMode}

-- What is declared in a namespace belongs to it.
theorem scope_declarations (name : String) (node : Node) :
    ∀ d ∈ declarations mode (some name) node, d.scope = name := by
  induction node using Tree.inductionOn with
  | node label children ih =>
      intro d hd
      rw [declarations] at hd
      split at hd
      · obtain rfl := List.mem_singleton.1 hd
        rfl
      · obtain rfl := List.mem_singleton.1 hd
        rfl
      · obtain rfl := List.mem_singleton.1 hd
        rfl
      · cases hd
      · cases hd
      · rw [declarationsAll_eq, List.mem_flatMap] at hd
        obtain ⟨child, hchild, hd⟩ := hd
        exact ih child hchild d hd

end Survey

namespace Script

variable {source : String}

-- A name of one word or more is not empty.
theorem image_tokens_ne_empty {bare last : Nat} (hle : bare ≤ last)
    (hlast : last < (significantTokens source).length) :
    (ofSource source).image (.tokens bare last) ≠ "" := by
  intro hempty
  have hchars := congrArg String.toList hempty
  rw [Image.tokens, toList_image_pieces, show last + 1 - bare = (last - bare) + 1 by omega,
    List.range'_succ, List.flatMap_cons] at hchars
  exact text_ne_nil (by omega) (List.append_eq_nil_iff.1 hchars).1

-- A namespace without braces, by its head and the passages behind it: its node holds the
-- statements up to the next keyword of a namespace. These are all statements up to the next
-- declaration of a namespace just if none of those begins with a relative name. All that is
-- declared in the node belongs to the namespace.
structure Owns (source : String) (first : Nat) (image : Image) (after : List Passage)
    (node : Node) : Prop where
  kind : node.kind = .namespaceDecl
  start : node.span.start = ((ofSource source).spanOf first).start
  name : node.image = (ofSource source).image image
  children : node.children.map Node.said =
    ((after.takeWhile Passage.isOwned).flatMap Passage.nodes).map (ofSource source).shown
  whole : node.children.map Node.said =
      ((Passage.following after).flatMap Passage.nodes).map (ofSource source).shown ↔
    ∀ p ∈ Passage.following after, p.isOwned = true
  declared : ∀ mode, Survey.topDeclarations mode node =
    node.children.flatMap (Survey.declarations mode (some node.image))
  scopes : ∀ mode, ∀ d ∈ Survey.topDeclarations mode node, d.scope = node.image

theorem owns_of_said {first mark bare last : Nat} {after : List Passage} {node : Node}
    (hle : bare ≤ last) (hlast : last < (significantTokens source).length)
    (hne : ∀ found, .statement true found ∈ after → found ≠ [])
    (h : node.said = (ofSource source).shown (Passage.openNode first (.tokens bare last) mark
      ((after.takeWhile Passage.isOwned).flatMap Passage.nodes))) :
    Owns source first (.tokens bare last) after node := by
  have hkind : node.kind = .namespaceDecl := kind_of_said h
  have hname : node.image = (ofSource source).image (.tokens bare last) := image_of_said h
  have hchildren := children_of_said h
  have hnonempty : node.image.isEmpty = false := by
    rw [hname]
    simpa using image_tokens_ne_empty hle hlast
  have hdeclared (mode : AnnotationMode) : Survey.topDeclarations mode node =
      node.children.flatMap (Survey.declarations mode (some node.image)) := by
    rw [Survey.topDeclarations, if_pos hkind, Survey.namespaceName?, hnonempty,
      Survey.declarationsAll_eq]
    rfl
  have hstart : node.span.start = ((ofSource source).spanOf first).start := by
    rw [span_of_said h]
    rfl
  refine ⟨hkind, hstart, hname, hchildren, ⟨fun hwhole => ?_,
    fun hall => ?_⟩, hdeclared, fun mode d hd => ?_⟩
  · have hlength := congrArg List.length (hchildren.symm.trans hwhole)
    rw [List.length_map, List.length_map] at hlength
    exact Passage.isOwned_of_length hne hlength
  · rw [← Passage.takeWhile_isOwned hall]
    exact hchildren
  · rw [hdeclared] at hd
    obtain ⟨child, -, hd⟩ := List.mem_flatMap.1 hd
    exact Survey.scope_declarations node.image child d hd

end Script

-- The top level of a file is a list of passages through its last token, and each head among them
-- stands for a node of the file, which goes on to the next keyword of a namespace.
theorem parse_namespaces {source : String} {limit : Nat} {root : Node}
    (h : parse source limit = .ok root) : ∃ passages,
      Passages (Grammar.parse limit) ⟨0, (Script.ofSource source).terminals⟩ passages
        ⟨(significantTokens source).length, []⟩ ∧
      (∀ others, Passages (Grammar.parse limit) ⟨0, (Script.ofSource source).terminals⟩ others
        ⟨(significantTokens source).length, []⟩ → others = passages) ∧
      ∀ before first image mark after, passages = before ++ .head first image mark :: after →
        ∃ older node later, root.children = older ++ node :: later ∧
          Script.Owns source first image after node := by
  obtain ⟨drafts, hdrafts, rfl⟩ := Script.parse_ok h
  have hfile := file_of_parseFile hdrafts
  obtain ⟨passages, hpassages, -, rfl⟩ := file_passages hfile
  rw [Script.terminals_length] at hpassages
  refine ⟨passages, hpassages, fun others hothers => hothers.unique hpassages rfl rfl, ?_⟩
  rintro before first image mark after rfl
  obtain ⟨s, t, hbefore, hhead, hafter⟩ := hpassages.split
  obtain ⟨bare, last, rfl, hle, hlast⟩ := words_of_head hhead
  rw [hbefore.stop] at hlast
  simp only [Input.stop, Nat.zero_add, Script.terminals_length] at hlast
  obtain ⟨older, later, hsplit⟩ := Passage.assemble_head before first (.tokens bare last) mark after
  have hchildren := Script.root_children (Script.ofSource source)
    (Passage.assemble (before ++ .head first (.tokens bare last) mark :: after))
  rw [hsplit, List.map_append, List.map_cons] at hchildren
  obtain ⟨olds, rest, holds, -, hrest⟩ := List.map_eq_append_iff.1 hchildren
  obtain ⟨node, news, rfl, hnode, -⟩ := List.map_eq_cons_iff.1 hrest
  rw [← hsplit] at holds
  exact ⟨olds, node, news, holds, Script.owns_of_said hle hlast hafter.nodes_ne_nil hnode⟩

-- A namespace that owns the class behind it.
theorem parse_namespaces_class : ∃ (root node : Node),
    parse "<?php namespace A; class B \x7b\x7d" 256 = .ok root ∧ node ∈ root.children ∧
      node.image = "A" ∧ node.children.map Node.kind = [.classDecl] ∧
      ∀ mode, ∀ d ∈ Survey.topDeclarations mode node, d.scope = "A" := by
  have hparses : (parse "<?php namespace A; class B \x7b\x7d" 256).toOption.isSome = true := by
    decide +kernel
  have hterminals : (Script.ofSource "<?php namespace A; class B \x7b\x7d").terminals =
      [⟨.keyword .kwNamespace, false⟩, ⟨.identifier, false⟩, ⟨.symbol .semicolon, false⟩,
        ⟨.keyword .kwClass, false⟩, ⟨.identifier, false⟩, ⟨.symbol .leftBrace, false⟩,
        ⟨.symbol .rightBrace, false⟩] := by
    decide +kernel
  cases h : parse "<?php namespace A; class B \x7b\x7d" 256 with
  | error e => simp [h, Except.toOption] at hparses
  | ok root =>
      obtain ⟨passages, -, hunique, hall⟩ := parse_namespaces h
      rw [← Script.terminals_length, hterminals] at hunique
      have hpassages := hunique [.head 0 (.tokens 1 1) 2, .statement false
        [⟨{ kind := .classDecl, first := 3, last := 6, image := .tokens 4 4, doc := some 3 }, []⟩]]
        (.cons (by simp) rfl (.cons (by simp) rfl (.nil _)))
      obtain ⟨older, node, later, hchildren, howns⟩ := hall [] 0 (.tokens 1 1) 2 _ hpassages.symm
      have hname : node.image = "A" := howns.name.trans (by decide +kernel)
      obtain ⟨child, others, hchild, hsaid, hothers⟩ := List.map_eq_cons_iff.1 howns.children
      obtain rfl := List.map_eq_nil_iff.1 hothers
      refine ⟨root, node, rfl, by simp [hchildren], hname, ?_, fun mode d hd => ?_⟩
      · rw [hchild, List.map_cons, Script.kind_of_said hsaid]
        rfl
      · rw [howns.scopes mode d hd, hname]

-- A relative name ends the namespace around it: the class behind the name is outside of the
-- namespace, although nothing else has been declared in between.
theorem relative_name_ends_namespace :
    (significantTokens "<?php namespace A; namespace\\f(); class B \x7b\x7d").map (·.kind) =
      [.keyword .kwNamespace, .identifier, .symbol .semicolon, .keyword .kwNamespace,
        .symbol .backslash, .identifier, .symbol .leftParen, .symbol .rightParen,
        .symbol .semicolon, .keyword .kwClass, .identifier, .symbol .leftBrace,
        .symbol .rightBrace] ∧
    (parse "<?php namespace A; namespace\\f(); class B \x7b\x7d" 256).toOption.map (fun root =>
      (root.children.map fun node : Node => (node.kind, node.image, node.children.length),
        (surveyed .heeded root).map fun d => (d.name, d.scope))) =
      some ([(.namespaceDecl, "A", 0), (.expressionStatement, "", 1), (.classDecl, "B", 0)],
        [("B", "+global")]) := by
  decide +kernel

end Census
