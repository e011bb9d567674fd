import Census.Proofs.Grammar.FormingStatements
import Census.Proofs.Script.Span
import Census.Proofs.Token.Spelling

namespace Census

open Grammar

-- A node with the children that its kind asks for, and with an image or with clauses that agree
-- with them.
structure Node.Conforms (node : Node) : Prop where
  children : Slot.Fit node.kind.slots (node.children.map Node.kind)
  choice : node.kind = .conditional →
    node.image = "?" ∧ node.children.length = 3 ∨ node.image = "?:" ∧ node.children.length = 2
  guarded : node.kind = .tryStatement → 1 < node.children.length

namespace Script

variable {source : String} {k : Nat}

-- What the grammar knows of a token is true of its text.
theorem text_spells {kind : TokenKind} (h : kindAt (ofSource source).terminals k = some kind) :
    kind.Spells ((ofSource source).text k).toList := by
  obtain ⟨t, ht, rfl⟩ := token_of_kindAt h
  obtain ⟨hk, rfl⟩ := List.getElem?_eq_some_iff.1 ht
  rw [text_ofSource hk]
  exact tokenize_spells _ (List.mem_filter.1 (List.getElem_mem hk)).1

theorem text_symbol {s : Symbol} (h : kindAt (ofSource source).terminals k = some (.symbol s)) :
    ((ofSource source).text k, s) ∈ Symbol.spellings := by
  have hspells := text_spells h
  rwa [TokenKind.Spells, String.ofList_toList] at hspells

theorem toList_image_pieces (script : Script) (tokens : List Nat) :
    (script.image (.pieces tokens)).toList = tokens.flatMap fun k => (script.text k).toList := by
  rw [Script.image, String.toList_join, List.flatMap_map]

theorem image_of_chooses {image : Image} {children : Nat}
    (h : image.Chooses (ofSource source).terminals children) :
    (ofSource source).image image = "?" ∧ children = 3 ∨
      (ofSource source).image image = "?:" ∧ children = 2 := by
  have question : ∀ s ∈ Symbol.spellings, s.2 = .question → s.1 = "?" := by decide
  have colon : ∀ s ∈ Symbol.spellings, s.2 = .colon → s.1 = ":" := by decide
  obtain ⟨q, hq, himage⟩ := h
  have hquestion : (ofSource source).text q = "?" := question _ (text_symbol hq) rfl
  rcases himage with ⟨rfl, hchildren⟩ | ⟨rfl, hc, hchildren⟩
  · exact .inl ⟨by rw [image_token, hquestion], hchildren⟩
  · have hcolon : (ofSource source).text (q + 1) = ":" := colon _ (text_symbol hc) rfl
    exact .inr ⟨by rw [image_pair, hquestion, hcolon]; rfl, hchildren⟩

variable {node : Node} {ds : List Draft}

-- Children that show drafts are of their kinds.
theorem kinds_of_said {script : Script} (h : node.children.map Node.said = ds.map script.shown) :
    node.children.map Node.kind = Draft.kinds ds := by
  have hkinds := congrArg (List.map fun t : Tree Content => t.label.kind) h
  simp only [List.map_map, Function.comp_def, Node.said, shown, Tree.label_map] at hkinds
  exact hkinds

theorem conforms_of_said {b : Nat} {d : Draft} (h : node.said = (ofSource source).shown d)
    (hd : Formed (ofSource source).terminals b d) : node.Conforms := by
  obtain ⟨hmarks, hfit⟩ := hd.own
  have hchildren := children_of_said h
  have hlength : node.children.length = d.children.length := by
    simpa using congrArg List.length hchildren
  refine ⟨?_, fun hkind => ?_, fun hkind => ?_⟩
  · rwa [kind_of_said h, kinds_of_said hchildren]
  · rw [kind_of_said h] at hkind
    rw [image_of_said h, hlength]
    exact image_of_chooses (hmarks.choice hkind)
  · rw [kind_of_said h] at hkind
    rw [hlength]
    exact hmarks.guarded hkind

-- Every node but the root shows a draft that keeps to the schema.
theorem formed_of_said {b : Nat} (hds : ∀ d ∈ ds, Formed (ofSource source).terminals b d) :
    ∀ node ∈ ((ofSource source).root ds).subtrees, node = (ofSource source).root ds ∨
      ∃ d, Node.said node = (ofSource source).shown d ∧ Formed (ofSource source).terminals b d := by
  have below {parent : Node} {ds : List Draft}
      (h : parent.children.map Node.said = ds.map (ofSource source).shown)
      (hds : ∀ d ∈ ds, Formed (ofSource source).terminals b d) :
      ∀ child ∈ parent.children, ∃ d, Node.said child = (ofSource source).shown d ∧
        Formed (ofSource source).terminals b d := by
    intro child hchild
    obtain ⟨d, hd, hsaid⟩ := List.mem_map.1 (h ▸ List.mem_map_of_mem hchild)
    exact ⟨d, hsaid.symm, hds d hd⟩
  refine Tree.subtrees_induction (.inl rfl) fun parent hparent child hchild => .inr ?_
  rcases hparent with rfl | ⟨d, hsaid, hd⟩
  · exact below (root_children _ _) hds child hchild
  · exact below (children_of_said hsaid) hd.child child hchild

section Parsed

variable {limit : Nat} {root : Node} (h : (ofSource source).parse limit = .ok root)
include h

theorem kind_root : root.kind = .sourceFile := by
  obtain ⟨drafts, -, rfl⟩ := parse_ok h
  rfl

theorem conforms_of_parse : ∀ node ∈ root.subtrees, Node.Conforms node := by
  obtain ⟨drafts, hdrafts, rfl⟩ := parse_ok h
  have hall := parseFile_sound hdrafts
  intro node hnode
  rcases formed_of_said (fun d hd => (hall d hd).formed) node hnode with rfl | ⟨d, hsaid, hd⟩
  · refine ⟨?_, nofun, nofun⟩
    rw [kinds_of_said (root_children _ _)]
    exact (Fills.many hall .nil).last.fit
  · exact conforms_of_said hsaid hd

-- A child has one of the kinds that some slot of its parent takes.
theorem taken_of_parse : ∀ node ∈ root.subtrees, ∀ child ∈ node.children,
    Node.kind child ≠ .sourceFile ∧
      (Node.kind child = .namespaceDecl → Node.kind node = .sourceFile) := by
  intro node hnode child hchild
  obtain ⟨slot, hslot, htakes⟩ :=
    (conforms_of_parse h node hnode).children.taken _ (List.mem_map_of_mem hchild)
  obtain ⟨hfile, hnamespace⟩ := NodeKind.takes_slots slot hslot
  refine ⟨fun hkind => ?_, fun hkind => hnamespace (hkind ▸ htakes)⟩
  rw [hkind, hfile] at htakes
  cases htakes

-- The images of nodes with names are made of the tokens of names.
theorem wordy_of_parse : ∀ node ∈ root.subtrees, (Node.kind node).isNamed = true →
    ∃ image, Node.image node = (ofSource source).image image ∧
      image.Wordy (ofSource source).terminals (Node.kind node).refers := by
  obtain ⟨drafts, hdrafts, rfl⟩ := parse_ok h
  have hall := parseFile_sound hdrafts
  intro node hnode hnamed
  rcases formed_of_said (fun d hd => (hall d hd).formed) node hnode with rfl | ⟨d, hsaid, hd⟩
  · cases hnamed
  · rw [kind_of_said hsaid] at hnamed ⊢
    exact ⟨_, image_of_said hsaid, hd.own.1.name hnamed⟩

end Parsed

end Script

-- Every tree keeps to the schema: the children of each node are those that its kind asks for. The
-- root is a file, no other node is one, and namespaces stand directly below the root.
theorem parse_conforms {source : String} {limit : Nat} {root : Node}
    (h : parse source limit = .ok root) : root.kind = .sourceFile ∧
      ∀ node ∈ root.subtrees, Node.Conforms node ∧ ∀ child ∈ node.children,
        Node.kind child ≠ .sourceFile ∧ (Node.kind child = .namespaceDecl → node = root) := by
  have htaken := Script.taken_of_parse h
  refine ⟨Script.kind_root h, fun node hnode =>
    ⟨Script.conforms_of_parse h node hnode, fun child hchild => ?_⟩⟩
  obtain ⟨hfile, hnamespace⟩ := htaken node hnode child hchild
  refine ⟨hfile, fun hkind => ?_⟩
  rcases Tree.parent_of_mem_subtrees hnode with rfl | ⟨parent, hparent, hnode'⟩
  · rfl
  · exact absurd (hnamespace hkind) (htaken parent hparent node hnode').1

-- A guarded block and the two forms of the conditional.
theorem parse_conforms_choice : ∃ root,
    parse "<?php namespace A; try \x7b $a ? $b : $c; \x7d finally \x7b $a ?: $c; \x7d" 256 = .ok root ∧
      ∀ node ∈ root.subtrees, Node.Conforms node := by
  have hparses : (parse "<?php namespace A; try \x7b $a ? $b : $c; \x7d finally \x7b $a ?: $c; \x7d"
      256).toOption.isSome = true := by decide +kernel
  cases h : parse "<?php namespace A; try \x7b $a ? $b : $c; \x7d finally \x7b $a ?: $c; \x7d" 256 with
  | error e => simp [h, Except.toOption] at hparses
  | ok root => exact ⟨root, rfl, fun node hnode => ((parse_conforms h).2 node hnode).1⟩

end Census
