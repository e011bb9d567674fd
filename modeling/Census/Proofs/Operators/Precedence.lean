import Census.Proofs.Grammar.StatementPlacement
import Census.Proofs.Operators.Lexing
import Census.Proofs.Operators.Sentence
import Census.Proofs.Script.Nesting

namespace Census

open Grammar

namespace Term

theorem source_toList (e : Term) (gap : Nat) : (e.source gap).toList =
    "<?php".toList ++ (Word.spaced e.words ++ (List.replicate gap ' ' ++ [';'])) := by
  have joined (w : Word) (ws : List Word) :
      [' '] ++ [' '].intercalate ((w :: ws).map fun w => w.text.toList) = Word.spaced (w :: ws) := by
    induction ws generalizing w with
    | nil => simp [Word.spaced, List.intercalate]
    | cons v ws ih =>
        have hv := ih v
        simp only [List.map_cons, Word.spaced, List.flatMap_cons, List.intercalate,
          List.intersperse_cons_cons, List.flatten_cons] at hv ⊢
        rw [← hv]
        simp
  obtain ⟨w, ws, hwords, -⟩ := e.wordsAt_opening 0
  rw [wordsAt_of_le (Nat.zero_le _)] at hwords
  have hjoined := joined w ws
  rw [← hwords] at hjoined
  rw [← hjoined]
  simp [source, Function.comp_def]

end Term

namespace Script

variable {source : String} {ws : List Word}

-- Tokens with the faces of words have their kinds for terminals.
theorem terminals_of_faces (h : (significantTokens source).map Token.face = ws.map Word.face) :
    (ofSource source).terminals = ws.map .ofWord := by
  rw [terminals_ofFace, h, List.map_map]
  refine List.map_congr_left fun w _ => Terminal.ofFace_eq ?_ ?_
  · cases w <;> nofun
  · cases w with
    | joint j => cases j <;> nofun
    | _ => nofun

theorem spells_of_faces (h : (significantTokens source).map Token.face = ws.map Word.face) :
    (ofSource source).Spells 0 ws := by
  intro k w hw
  have hface : (((ofSource source).lexemes.toList.map (·.token)).map Token.face)[k]? =
      some w.face := by
    rw [lexemes_ofSource, h, List.getElem?_map, hw]
    rfl
  simp only [List.getElem?_map, Array.getElem?_toList, Option.map_map, Option.map_eq_some_iff] at hface
  obtain ⟨lexeme, hl, ht⟩ := hface
  rw [Nat.zero_add, text, hl]
  exact congrArg Prod.snd ht

-- The tree of a script of one expression, but for positions and numbers.
theorem form_root (script : Script) (drafts : List Draft) :
    (script.root drafts).map (fun l => (l.content.kind, l.content.image)) =
      ⟨(.sourceFile, ""), drafts.map script.form⟩ := by
  refine (Tree.map_number (h := fun c : Content => (c.kind, c.image)) (fun _ _ => rfl) _ 0).trans ?_
  rw [Tree.map_mk, List.map_map]
  refine congrArg _ (List.map_congr_left fun d _ => ?_)
  exact Tree.map_map _ _ d

end Script

-- The kinds and images of the nodes of a script that is one expression.
def Term.scriptShape (e : Term) : Tree (NodeKind × String) :=
  ⟨(.sourceFile, ""), [⟨(.expressionStatement, ""), [e.shape]⟩]⟩

-- An expression that is written with no more parentheses than the levels of its operators ask
-- for is read back as it was, under every limit that is high enough.
theorem parse_source (e : Term) (gap limit : Nat) :
    ((∃ p, parse (e.source gap) limit = .error (.nestingLimit p limit)) ∨
      ∃ root, parse (e.source gap) limit = .ok root ∧
        root.map (fun l => (l.content.kind, l.content.image)) = e.scriptShape) ∧
    (2 * (e.words.length + 1) + 2 ≤ limit → ∃ root, parse (e.source gap) limit = .ok root ∧
      root.map (fun l => (l.content.kind, l.content.image)) = e.scriptShape) := by
  obtain ⟨hfaces, hending⟩ := tokenize_words e.words (e.source_toList gap)
  have hterminals := Script.terminals_of_faces hfaces
  have hoption : (∃ k, parseFile limit (Script.ofSource (e.source gap)).terminals =
        .error (.tooDeep k)) ∨ ∃ d, parseFile limit (Script.ofSource (e.source gap)).terminals =
        .ok [d] ∧ Parser.ShowsStatement (Script.ofSource (e.source gap)) e d := by
    rw [hterminals, parseFile]
    rcases Parser.file_yields limit (Script.spells_of_faces hfaces) with ⟨k, hk⟩ | ⟨ds, t, hd, d, rfl, hs⟩
    · exact .inl ⟨k, by rw [← Input.ofWords, hk]⟩
    · exact .inr ⟨d, by rw [← Input.ofWords, hd], hs⟩
  have hok (d : Draft) (hd : parseFile limit (Script.ofSource (e.source gap)).terminals = .ok [d])
      (hs : Parser.ShowsStatement (Script.ofSource (e.source gap)) e d) :
      ∃ root, parse (e.source gap) limit = .ok root ∧
        root.map (fun l => (l.content.kind, l.content.image)) = e.scriptShape := by
    refine ⟨(Script.ofSource (e.source gap)).root [d], ?_,
      (Script.form_root (Script.ofSource (e.source gap)) [d]).trans ?_⟩
    · rw [parse, Script.parse, hd]
      simp only [show (Script.ofSource (e.source gap)).ending = none from hending]
    · rw [List.map_singleton, hs]
      rfl
  refine ⟨?_, fun hlimit => ?_⟩
  · rcases hoption with ⟨k, hk⟩ | ⟨d, hd, hs⟩
    · exact .inl ⟨_, Script.parse_eq_nestingLimit.2 ⟨rfl, k, hk, rfl⟩⟩
    · exact .inr (hok d hd hs)
  · rcases hoption with ⟨k, hk⟩ | ⟨d, hd, hs⟩
    · refine absurd hk (parseFile_deep_enough ?_ k)
      rw [hterminals]
      simpa using hlimit
    · exact hok d hd hs

-- Operators of six levels, with one operand that needs parentheses.
def Term.mixed : Term :=
  let plus : BinaryOperator := ⟨⟨("+", .plus), by decide⟩, ⟨10, false⟩, rfl⟩
  let times : BinaryOperator := ⟨⟨("*", .star), by decide⟩, ⟨11, false⟩, rfl⟩
  let coalesce : BinaryOperator := ⟨⟨("??", .coalesce), by decide⟩, ⟨1, true⟩, rfl⟩
  let product : Term := .binary times
    (.binary plus (.named ⟨['b'], by decide⟩) (.named ⟨['c'], by decide⟩))
    (.sign ⟨⟨("-", .minus), by decide⟩, by decide⟩ (.named ⟨['d'], by decide⟩))
  .joined .either
    (.assign ⟨['x'], by decide⟩ ⟨⟨("=", .assign), by decide⟩, by decide⟩
      (.binary coalesce product
        (.binary coalesce (.named ⟨['e'], by decide⟩) (.named ⟨['f'], by decide⟩))))
    (.named ⟨['g'], by decide⟩)

theorem parse_source_mixed :
    let named (image : String) : Tree (NodeKind × String) := ⟨(.variableName, image), []⟩
    let binary (image : String) (l r : Tree (NodeKind × String)) : Tree (NodeKind × String) :=
      ⟨(.binary, image), [l, r]⟩
    let value := binary "??"
      (binary "*" (binary "+" (named "$b") (named "$c")) ⟨(.unary, "-"), [named "$d"]⟩)
      (binary "??" (named "$e") (named "$f"))
    ∃ root, parse "<?php $x = ( $b + $c ) * - $d ?? $e ?? $f or $g;" 256 = .ok root ∧
      root.map (fun l => (l.content.kind, l.content.image)) = ⟨(.sourceFile, ""), [
        ⟨(.expressionStatement, ""), [
          binary "or" ⟨(.assignment, "="), [named "$x", value]⟩ (named "$g")]⟩]⟩ := by
  have hsource : Term.mixed.source 0 = "<?php $x = ( $b + $c ) * - $d ?? $e ?? $f or $g;" := by
    decide +kernel
  obtain ⟨root, hroot, hshape⟩ := (parse_source Term.mixed 0 256).2 (by decide +kernel)
  rw [hsource] at hroot
  exact ⟨root, hroot, hshape.trans (by decide +kernel)⟩

end Census
