import Census.Proofs.Token.Resumption

namespace Census

open Text

-- A text of one line.
theorem Position.ofIndex_of_line {cs : List Char} (h : ∀ c ∈ cs, c ≠ '\n' ∧ c ≠ '\r') (i : Nat) :
    ofIndex cs i = ⟨1, 1 + i⟩ := by
  have hbreaks (j : Nat) : breaksAt cs j = false := by
    unfold breaksAt
    cases hc : cs[j]? with
    | none => rfl
    | some c =>
        obtain ⟨hfeed, hreturn⟩ := h c (List.mem_of_getElem? hc)
        simp [hfeed, hreturn]
  have hline : (List.range i).reverse.takeWhile (fun j => !breaksAt cs j) = (List.range i).reverse :=
    List.takeWhile_eq_self_iff.2 fun j _ => by rw [hbreaks, Bool.not_false]
  have hcount : (List.range i).countP (breaksAt cs) = 0 :=
    List.countP_eq_zero.2 fun j _ => by rw [hbreaks]; exact Bool.false_ne_true
  rw [ofIndex, hline, hcount, List.length_reverse, List.length_range]

-- A token as it is written, with the space behind it.
structure Piece where
  text : List Char
  kind : TokenKind
  space : List Char := []

namespace Piece

def written : List Piece → List Char
  | [] => []
  | p :: ps => p.text ++ (p.space ++ written ps)

-- Where the pieces begin, the first of them behind `n` characters.
def starts (n : Nat) : List Piece → List Nat
  | [] => []
  | p :: ps => n :: starts (n + p.text.length + p.space.length) ps

-- Each piece is read as one token in front of those behind it.
def Readable : List Piece → Prop
  | [] => True
  | p :: ps => p.space.all Scan.isSpace = true ∧ Scan.headIs (!Scan.isSpace ·) p.text = true ∧
      Mode.code.behind p.kind = .code ∧
      Scan.code (p.text ++ (p.space ++ written ps)) = .token p.kind p.text.length ∧ Readable ps

end Piece

namespace Lexer

variable {lexer : Lexer} {cs before space : List Char}

-- What is read of pieces: their kinds and texts, and where each of them begins.
theorem tokens_pieces (ps : List Piece) (hat : lexer.At cs before) (hmode : lexer.mode = .code)
    (hrest : lexer.rest = space ++ Piece.written ps) (hspace : space.all Scan.isSpace = true)
    (h : Piece.Readable ps) :
    lexer.tokens.1.map Token.face = ps.map (fun p => (p.kind, String.ofList p.text)) ∧
      lexer.tokens.1.map (·.span.start) =
        (Piece.starts (before.length + space.length) ps).map (Position.ofIndex cs) ∧
      lexer.tokens.2 = none := by
  induction ps generalizing lexer before space with
  | nil =>
      have hend : lexer.rest.drop lexer.gap = [] := by
        rw [gap, hmode, hrest, Piece.written, List.append_nil, run,
          List.takeWhile_eq_self_iff.2 (List.all_eq_true.1 hspace), List.drop_length]
      rw [tokens_of_none (next?_of_nil hend)]
      exact ⟨rfl, rfl, rfl⟩
  | cons p ps ih =>
      obtain ⟨hbehind, hvisible, hstays, hcode, hreadable⟩ := h
      obtain ⟨t, next, hnext, hkind, htext, hmode', hrest'⟩ := next?_written hmode hrest hspace hvisible hcode
      obtain ⟨gap, hreads⟩ := next?_reads hnext
      have htext' : t.text.toList = p.text := by rw [htext, String.toList_ofList]
      have hsplit := hreads.rest
      rw [hrest, hrest', htext'] at hsplit
      obtain rfl : space = gap := List.append_cancel_right hsplit
      obtain ⟨hstands, hat'⟩ := hreads.stands cs before hat
      obtain ⟨hfaces, hstarts, hending⟩ := ih hat' (hmode'.trans hstays) hrest' hbehind hreadable
      rw [tokens_of_next? hnext]
      refine ⟨?_, ?_, hending⟩
      · rw [List.map_cons, List.map_cons, hfaces]
        exact congrArg (· :: _) (Prod.ext hkind htext)
      · rw [List.map_cons, hstarts, Piece.starts, List.map_cons, hstands.span, htext']
        simp only [List.length_append]

end Lexer

-- The significant tokens of a source that is written in pieces.
theorem tokenize_pieces {source : String} {space : List Char} {ps : List Piece}
    (h : source.toList = "<?php".toList ++ (space ++ Piece.written ps))
    (hspace : space.all Scan.isSpace = true) (hreadable : Piece.Readable ps)
    (hsignificant : ∀ p ∈ ps, p.kind.isSignificant = true) :
    (significantTokens source).map Token.face = ps.map (fun p => (p.kind, String.ofList p.text)) ∧
      (significantTokens source).map (·.span.start) =
        (Piece.starts (5 + space.length) ps).map (Position.ofIndex source.toList) ∧
      (tokenize source).2 = none := by
  obtain ⟨t, next, hnext, hkind, hmode, hrest⟩ := Lexer.next?_openTag h
  obtain ⟨gap, hreads⟩ := Lexer.next?_reads hnext
  obtain rfl : gap = [] := hreads.bare rfl
  have htag : t.text.toList = "<?php".toList := by
    have hsplit : source.toList = t.text.toList ++ next.rest := hreads.rest
    rw [h, hrest] at hsplit
    exact (List.append_cancel_right hsplit).symm
  have hat := (hreads.stands _ _ (Lexer.at_ofSource source)).2
  obtain ⟨hfaces, hstarts, hending⟩ := Lexer.tokens_pieces ps hat hmode hrest hspace hreadable
  have hall : ∀ u ∈ next.tokens.1, u.kind.isSignificant = true := by
    intro u hu
    obtain ⟨p, hp, hface⟩ := List.mem_map.1 (hfaces ▸ List.mem_map_of_mem hu)
    rw [show u.kind = p.kind from congrArg Prod.fst hface.symm]
    exact hsignificant p hp
  have htokens : significantTokens source = next.tokens.1 := by
    rw [significantTokens, tokenize_eq, Lexer.tokens_of_next? hnext]
    exact (List.filter_cons_of_neg (by simp [hkind, TokenKind.isSignificant])).trans
      (List.filter_eq_self.2 hall)
  rw [htokens, tokenize_eq, Lexer.tokens_of_next? hnext]
  refine ⟨hfaces, ?_, hending⟩
  rw [hstarts, htag]
  rfl

end Census
