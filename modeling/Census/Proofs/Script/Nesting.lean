import Census.Proofs.Grammar.Limit
import Census.Proofs.Grammar.StatementPlacement
import Census.Proofs.Token.Order
import Census.Proofs.Token.Written
import Census.Script
import Mathlib.Order.Basic

namespace Census

-- How the grammar sees a token that says this of itself.
def Grammar.Terminal.ofFace (face : TokenKind × String) : Terminal :=
  ⟨face.1, (face.1 = .identifier || face.1 = .keyword .kwArray) &&
    Script.castNames.contains (Text.lowerCase face.2)⟩

-- Names alone, and the word for arrays, can name types.
theorem Grammar.Terminal.ofFace_eq {face : TokenKind × String} (hidentifier : face.1 ≠ .identifier)
    (harray : face.1 ≠ .keyword .kwArray) : ofFace face = ⟨face.1, false⟩ := by
  simp [ofFace, hidentifier, harray]

namespace Script

theorem lexemes_ofSource (source : String) :
    (ofSource source).lexemes.toList.map (·.token) = significantTokens source :=
  Lexeme.ofTokensFrom_tokens none _

theorem terminals_length (source : String) :
    (ofSource source).terminals.length = (significantTokens source).length := by
  rw [terminals, List.length_map, ← lexemes_ofSource, List.length_map]

theorem terminals_ofSource (source : String) : (ofSource source).terminals =
    (significantTokens source).map fun token => ⟨token.kind, namesCast token⟩ := by
  rw [terminals, ← lexemes_ofSource, List.map_map]
  rfl

theorem terminals_ofFace (source : String) : (ofSource source).terminals =
    ((significantTokens source).map Token.face).map .ofFace := by
  rw [terminals_ofSource, List.map_map]
  rfl

theorem endError_ne_nestingLimit (script : Script) (p : Position) (k : Nat) :
    script.endError ≠ .nestingLimit p k := by
  unfold endError
  split
  · rename_i e _
    cases e <;> simp [ParseError.ofLexError]
  · simp

-- A script nests too deeply where its terminals do, and the error names the limit in force.
theorem parse_eq_nestingLimit {script : Script} {limit k : Nat} {p : Position} :
    script.parse limit = .error (.nestingLimit p k) ↔ limit = k ∧ ∃ token,
      Grammar.parseFile limit script.terminals = .error (.tooDeep token) ∧
        (script.spanOf token).start = p := by
  unfold parse
  cases Grammar.parseFile limit script.terminals with
  | error failure =>
      cases failure with
      | atEnd => simp [error, endError_ne_nestingLimit]
      | unexpected token expected => simp [error]
      | tooDeep token => simp [error, and_comm]
  | ok drafts =>
      cases script.ending with
      | none => simp
      | some e => cases e <;> simp [ParseError.ofLexError]

-- Below the nesting limit, the limit is only passed on.
theorem parse_of_le (script : Script) {n m : Nat} (hnm : n ≤ m)
    (h : ∀ p k, script.parse n ≠ .error (.nestingLimit p k)) : script.parse m = script.parse n := by
  have hfile := Grammar.parseFile_of_le hnm script.terminals fun token ht =>
    h _ n (parse_eq_nestingLimit.2 ⟨rfl, token, ht, rfl⟩)
  unfold parse
  rw [hfile]
  cases hn : Grammar.parseFile n script.terminals with
  | ok drafts => rfl
  | error failure =>
      cases failure with
      | atEnd => rfl
      | unexpected token expected => rfl
      | tooDeep token => exact absurd (parse_eq_nestingLimit.2 ⟨rfl, token, hn, rfl⟩) (h _ n)

end Script

-- A tree does not depend on the limit that lets it be.
theorem parse_ok_of_le {text : String} {n m : Nat} {root : Node} (hnm : n ≤ m)
    (h : parse text n = .ok root) : parse text m = .ok root := by
  rw [← h]
  apply Script.parse_of_le _ hnm
  intro p k hlimit
  rw [parse] at h
  rw [h] at hlimit
  cases hlimit

-- A limit decides only between the outcome of a script and the error that names the limit: all
-- limits that do not bring that error agree, and some limit that depends on nothing but the
-- number of tokens does not.
theorem parse_under_limits (source : String) {n m : Nat} (hnm : n ≤ m) :
    ((∀ p k, parse source n ≠ .error (.nestingLimit p k)) → parse source m = parse source n) ∧
      (∀ p k, parse source n = .error (.nestingLimit p k) → k = n) ∧
      (2 * (significantTokens source).length + 2 ≤ n →
        ∀ p k, parse source n ≠ .error (.nestingLimit p k)) := by
  refine ⟨Script.parse_of_le _ hnm, fun p k h => (Script.parse_eq_nestingLimit.1 h).1.symm, ?_⟩
  intro hn p k h
  obtain ⟨-, token, ht, -⟩ := Script.parse_eq_nestingLimit.1 h
  rw [← Script.terminals_length] at hn
  exact Grammar.parseFile_deep_enough hn token ht

-- Parentheses that are too deep for three levels, but not for five. From there on, all limits
-- agree; twenty could be told to be enough from the number of tokens.
theorem parse_parentheses_under_limits :
    let source := "<?php f(((1)));"
    parse source 3 = .error (.nestingLimit ⟨1, 10⟩ 3) ∧ (parse source 5).isOk = true ∧
      parse source 20 = parse source 5 ∧ ∀ p k, parse source 20 ≠ .error (.nestingLimit p k) := by
  intro source
  have hok : (parse source 5).isOk = true := by decide +kernel
  have hfive : ∀ p k, parse source 5 ≠ .error (.nestingLimit p k) := by
    intro p k h
    rw [h] at hok
    cases hok
  have hcount : (significantTokens source).length = 9 := by decide +kernel
  refine ⟨by decide +kernel, hok, ?_, ?_⟩
  · exact (parse_under_limits source (n := 5) (m := 20) (by decide)).1 hfive
  · exact (parse_under_limits source (n := 20) (m := 20) (by decide)).2.2 (by omega)

end Census
