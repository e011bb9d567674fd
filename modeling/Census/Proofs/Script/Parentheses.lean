import Census.Proofs.Grammar.Parentheses
import Census.Proofs.Script.Span
import Census.Proofs.Token.Pieces

namespace Census

open Grammar

-- An assignment of a number in `k` pairs of parentheses.
def wrappedSource (k : Nat) : String :=
  .ofList ("<?php $a = ".toList ++ (List.replicate k '(' ++ '1' :: (List.replicate k ')' ++ [';'])))

namespace Piece

def leftParen : Piece := { text := ['('], kind := .symbol .leftParen }

def rightParen : Piece := { text := [')'], kind := .symbol .rightParen }

def number : Piece := { text := ['1'], kind := .integer }

def semicolon : Piece := { text := [';'], kind := .symbol .semicolon }

-- What stands behind the equals sign.
def wrapped (k : Nat) : List Piece :=
  List.replicate k leftParen ++ number :: (List.replicate k rightParen ++ [semicolon])

def assigned (k : Nat) : List Piece :=
  { text := ['$', 'a'], kind := .variableName, space := [' '] } ::
    { text := ['='], kind := .symbol .assign, space := [' '] } :: wrapped k

theorem written_append (ps qs : List Piece) : written (ps ++ qs) = written ps ++ written qs := by
  induction ps with
  | nil => rfl
  | cons p ps ih => rw [List.cons_append, written, written, ih, List.append_assoc, List.append_assoc]

theorem written_replicate {p : Piece} {c : Char} (htext : p.text = [c]) (hspace : p.space = []) (k : Nat) :
    written (List.replicate k p) = List.replicate k c := by
  induction k with
  | zero => rfl
  | succ k ih => rw [List.replicate_succ, written, ih, htext, hspace]; rfl

theorem written_wrapped (k : Nat) : written (wrapped k) =
    List.replicate k '(' ++ '1' :: (List.replicate k ')' ++ [';']) := by
  rw [wrapped, written_append, written, written_append, written_replicate (c := '(') rfl rfl,
    written_replicate (c := ')') rfl rfl]
  rfl

theorem readable_replicate {p : Piece} (hp : ∀ ps, Readable ps → Readable (p :: ps)) (k : Nat)
    {ps : List Piece} (h : Readable ps) : Readable (List.replicate k p ++ ps) := by
  induction k with
  | zero => exact h
  | succ k ih => exact hp _ ih

theorem readable_wrapped (k : Nat) : Readable (wrapped k) := by
  have hsemicolon : Readable [semicolon] := ⟨rfl, rfl, rfl, rfl, trivial⟩
  have hclosing : Readable (List.replicate k rightParen ++ [semicolon]) :=
    readable_replicate (fun _ h => ⟨rfl, rfl, rfl, rfl, h⟩) k hsemicolon
  refine readable_replicate (fun _ h => ⟨rfl, rfl, rfl, rfl, h⟩) k ⟨rfl, rfl, rfl, ?_, hclosing⟩
  -- A number ends in front of a parenthesis and of a semicolon.
  cases k <;> rfl

theorem readable_assigned (k : Nat) : Readable (assigned k) :=
  ⟨rfl, rfl, rfl, rfl, rfl, rfl, rfl, rfl, readable_wrapped k⟩

theorem starts_of_single {ps : List Piece} (h : ∀ p ∈ ps, p.text.length = 1 ∧ p.space = []) (n : Nat) :
    starts n ps = List.range' n ps.length := by
  induction ps generalizing n with
  | nil => rfl
  | cons p ps ih =>
      obtain ⟨⟨htext, hspace⟩, hps⟩ := List.forall_mem_cons.1 h
      rw [starts, htext, hspace, ih hps, List.length_cons, List.range'_succ]
      rfl

theorem mem_wrapped {k : Nat} {p : Piece} (h : p ∈ wrapped k) :
    p = leftParen ∨ p = number ∨ p = rightParen ∨ p = semicolon := by
  simp only [wrapped, List.mem_append, List.mem_cons, List.mem_replicate, List.not_mem_nil, or_false] at h
  tauto

theorem starts_assigned (k : Nat) : starts 6 (assigned k) = 6 :: 9 :: List.range' 11 (2 * k + 2) := by
  have hsingle : ∀ p ∈ wrapped k, p.text.length = 1 ∧ p.space = [] := by
    intro p hp
    rcases mem_wrapped hp with rfl | rfl | rfl | rfl <;> exact ⟨rfl, rfl⟩
  have hlength : (wrapped k).length = 2 * k + 2 := by
    simp only [wrapped, List.length_append, List.length_replicate, List.length_cons, List.length_nil]
    omega
  rw [assigned, starts, starts, starts_of_single hsingle, hlength]
  rfl

end Piece

-- The terminals of pieces none of which can name a type.
theorem Script.terminals_of_pieces {source : String} {ps : List Piece}
    (h : (significantTokens source).map Token.face = ps.map fun p => (p.kind, String.ofList p.text))
    (hcast : ∀ p ∈ ps, p.kind ≠ .identifier ∧ p.kind ≠ .keyword .kwArray) :
    (ofSource source).terminals = ps.map fun p => ⟨p.kind, false⟩ := by
  rw [terminals_ofFace, h, List.map_map]
  refine List.map_congr_left fun p hp => ?_
  obtain ⟨hidentifier, harray⟩ := hcast p hp
  exact Terminal.ofFace_eq hidentifier harray

section Wrapped

variable (k : Nat)

theorem toList_wrappedSource : (wrappedSource k).toList =
    "<?php $a = ".toList ++ (List.replicate k '(' ++ '1' :: (List.replicate k ')' ++ [';'])) :=
  String.toList_ofList

theorem wrappedSource_written :
    (wrappedSource k).toList = "<?php".toList ++ ([' '] ++ Piece.written (Piece.assigned k)) := by
  have hopener : "<?php $a = ".toList = "<?php".toList ++ [' ', '$', 'a', ' ', '=', ' '] := by decide +kernel
  rw [toList_wrappedSource, hopener, Piece.assigned, Piece.written, Piece.written, Piece.written_wrapped,
    List.append_assoc]
  rfl

theorem tokenize_wrappedSource :
    (significantTokens (wrappedSource k)).map Token.face =
        (Piece.assigned k).map (fun p => (p.kind, String.ofList p.text)) ∧
      (significantTokens (wrappedSource k)).map (·.span.start) =
        (6 :: 9 :: List.range' 11 (2 * k + 2)).map (fun i => ⟨1, 1 + i⟩) ∧
      (tokenize (wrappedSource k)).2 = none := by
  have hsignificant : ∀ p ∈ Piece.assigned k, p.kind.isSignificant = true := by
    refine List.forall_mem_cons.2 ⟨rfl, List.forall_mem_cons.2 ⟨rfl, fun p hp => ?_⟩⟩
    rcases Piece.mem_wrapped hp with rfl | rfl | rfl | rfl <;> rfl
  have hline : ∀ c ∈ (wrappedSource k).toList, c ≠ '\n' ∧ c ≠ '\r' := by
    have hopener : ("<?php $a = ".toList.all fun c => c ≠ '\n' && c ≠ '\r') = true := by decide +kernel
    simp only [List.all_eq_true, Bool.and_eq_true, decide_eq_true_eq] at hopener
    intro c hc
    rw [toList_wrappedSource, List.mem_append] at hc
    refine hc.elim (hopener c) fun hc => ?_
    simp only [List.mem_append, List.mem_cons, List.mem_replicate, List.not_mem_nil, or_false] at hc
    rcases hc with ⟨-, rfl⟩ | rfl | ⟨-, rfl⟩ | rfl <;> decide
  obtain ⟨hfaces, hstarts, hending⟩ :=
    tokenize_pieces (wrappedSource_written k) rfl (Piece.readable_assigned k) hsignificant
  refine ⟨hfaces, ?_, hending⟩
  rw [hstarts, funext (Position.ofIndex_of_line hline)]
  exact congrArg _ (Piece.starts_assigned k)

theorem terminals_wrappedSource : (Script.ofSource (wrappedSource k)).terminals = wrappedStatement k := by
  have hcast : ∀ p ∈ Piece.assigned k, p.kind ≠ .identifier ∧ p.kind ≠ .keyword .kwArray := by
    refine List.forall_mem_cons.2 ⟨by decide, List.forall_mem_cons.2 ⟨by decide, fun p hp => ?_⟩⟩
    rcases Piece.mem_wrapped hp with rfl | rfl | rfl | rfl <;> decide
  rw [Script.terminals_of_pieces (tokenize_wrappedSource k).1 hcast]
  simp only [Piece.assigned, Piece.wrapped, wrappedStatement, wrapped, List.map_cons, List.map_append,
    List.map_replicate]
  rfl

-- Where the first level is entered that `n` levels do not allow for.
theorem start_wrappedSource {n : Nat} (hn : n < k + 3) : ∃ t,
    (significantTokens (wrappedSource k))[if n ≤ 1 then 0 else n]? = some t ∧
      t.span.start = ⟨1, if n ≤ 1 then 7 else n + 10⟩ := by
  have hstart : ((significantTokens (wrappedSource k)).map (·.span.start))[if n ≤ 1 then 0 else n]? =
      some ⟨1, if n ≤ 1 then 7 else n + 10⟩ := by
    rw [(tokenize_wrappedSource k).2.1]
    match n with
    | 0 | 1 => rfl
    | m + 2 =>
        have hm : m < 2 * k + 2 := by omega
        rw [if_neg (by omega), if_neg (by omega), List.getElem?_map, List.getElem?_cons_succ,
          List.getElem?_cons_succ, List.getElem?_range' hm, Option.map_some]
        congr 2
        omega
  rw [List.getElem?_map] at hstart
  exact Option.map_eq_some_iff.1 hstart

theorem refuse_wrappedSource {n : Nat} (hn : n < k + 3) : ∃ t,
    (significantTokens (wrappedSource k))[if n ≤ 1 then 0 else n]? = some t ∧
      t.span.start = ⟨1, if n ≤ 1 then 7 else n + 10⟩ ∧
      parse (wrappedSource k) n = .error (.nestingLimit t.span.start n) := by
  have hfile := parseFile_wrappedStatement n k
  rw [← terminals_wrappedSource, if_neg (by omega)] at hfile
  obtain ⟨t, ht, hstart⟩ := start_wrappedSource k hn
  obtain ⟨hindex, rfl⟩ := List.getElem?_eq_some_iff.1 ht
  refine ⟨_, ht, hstart, Script.parse_eq_nestingLimit.2 ⟨rfl, _, hfile, ?_⟩⟩
  rw [Script.spanOf_eq hindex]

theorem accept_wrappedSource {n : Nat} (hn : k + 3 ≤ n) : ∃ root, parse (wrappedSource k) n = .ok root := by
  have hfile := parseFile_wrappedStatement n k
  rw [← terminals_wrappedSource, if_pos hn] at hfile
  refine ⟨(Script.ofSource (wrappedSource k)).root [.wrappedStatement k], ?_⟩
  rw [parse, Script.parse, hfile]
  simp only [show (Script.ofSource (wrappedSource k)).ending = none from (tokenize_wrappedSource k).2.2]

end Wrapped

-- The assignment takes three levels, and each pair of parentheses another one. With fewer of them
-- the script is refused where the first missing level would be entered: at the variable, where the
-- statement and its expression begin, or else at a token behind the equals sign.
theorem parse_wrappedSource (k n : Nat) :
    (significantTokens (wrappedSource k)).map (·.text) =
        "$a" :: "=" :: (List.replicate k "(" ++ "1" :: (List.replicate k ")" ++ [";"])) ∧
      ((∃ root, parse (wrappedSource k) n = .ok root) ↔ k + 3 ≤ n) ∧
      (n < k + 3 → ∃ t, (significantTokens (wrappedSource k))[if n ≤ 1 then 0 else n]? = some t ∧
        t.span.start = ⟨1, if n ≤ 1 then 7 else n + 10⟩ ∧
        parse (wrappedSource k) n = .error (.nestingLimit t.span.start n)) := by
  refine ⟨?_, ⟨fun ⟨root, hroot⟩ => ?_, accept_wrappedSource k⟩, refuse_wrappedSource k⟩
  · have htexts := congrArg (List.map Prod.snd) (tokenize_wrappedSource k).1
    rw [List.map_map, List.map_map] at htexts
    refine (show _ = _ from htexts).trans ?_
    simp only [Piece.assigned, Piece.wrapped, List.map_cons, List.map_append, List.map_replicate]
    rfl
  · by_contra hn
    obtain ⟨t, -, -, herror⟩ := refuse_wrappedSource k (Nat.lt_of_not_le hn)
    rw [hroot] at herror
    cases herror

-- Under the default limit, 253 pairs of parentheses are read, and one more is too deep by a level.
theorem parse_wrappedSource_default : (∃ root, parse (wrappedSource 253) defaultNesting = .ok root) ∧
    256 < 254 + 3 ∧ parse (wrappedSource 254) defaultNesting = .error (.nestingLimit ⟨1, 266⟩ 256) := by
  obtain ⟨t, -, hstart, herror⟩ := (parse_wrappedSource 254 256).2.2 (by decide)
  exact ⟨(parse_wrappedSource 253 256).2.1.2 (by decide), by decide, herror.trans (by rw [hstart]; rfl)⟩

end Census
