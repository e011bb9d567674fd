import Census.Proofs.Grammar.Failure
import Census.Proofs.Grammar.ValueStatements
import Census.Proofs.Script.Span

namespace Census

open Grammar

namespace ParseError

end ParseError

namespace Grammar

end Grammar

namespace Script

variable {source : String}

theorem lastPosition_ofSource {t : Token} (h : (significantTokens source).getLast? = some t) :
    (ofSource source).lastPosition = t.span.stop := by
  rw [← lexemes_ofSource, List.getLast?_map, Array.getLast?_toList] at h
  obtain ⟨lexeme, hl, rfl⟩ := Option.map_eq_some_iff.1 h
  rw [lastPosition, hl]
  rfl

theorem spanOf_end {last : Token} (h : (significantTokens source).getLast? = some last) :
    (ofSource source).spanOf (significantTokens source).length = ⟨last.span.stop, last.span.stop⟩ := by
  rw [spanOf, Array.getElem?_eq_none (by simp [← lexemes_ofSource]), ← lastPosition_ofSource h]
  rfl

end Script

end Census
