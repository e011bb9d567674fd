import Census.Grammar.Goal
import Census.Proofs.Grammar.Rounds

namespace Census.Grammar

-- Numbers from `a` on in front of `b`, and those from `b` on in front of `c`.
theorem range'_append_sub {a b c : Nat} (hab : a ≤ b) (hbc : b ≤ c) :
    List.range' a (b - a) ++ List.range' b (c - b) = List.range' a (c - a) := by
  have happend := @List.range'_append_1 a (b - a) (c - b)
  rwa [show a + (b - a) = b by omega, show b - a + (c - b) = c - a by omega] at happend

theorem range'_succ_sub (a : Nat) : List.range' a (a + 1 - a) = [a] := by
  rw [Nat.add_sub_cancel_left]
  rfl

-- A name by the token it begins with, the separator in front, and the first and the last word.
def Name.between (first : Nat) (lead : Option Nat) (bare last : Nat) : Name :=
  { first, lead, words := List.range' bare (last + 1 - bare), last }

namespace Parser

variable {first bare last : Nat} {lead : Option Nat} {s t : Input}

-- A round of the loop of a name, told of nothing but the last word so far.
def nameRound (first : Nat) (lead : Option Nat) (bare last : Nat) : Parser (Round Nat Name) := do
  if (← ahead 0) = some (.symbol .backslash) && (← ahead 1).any TokenKind.isName then
    let _ ← next
    return .again (← next)
  else return .done (.between first lead bare last)

-- A round of the loop as it is, which collects the words.
def wordsRound (first : Nat) (lead : Option Nat) :
    List Nat × Nat → Parser (Round (List Nat × Nat) Name) := fun (words, last) => do
  if (← ahead 0) = some (.symbol .backslash) && (← ahead 1).any TokenKind.isName then
    let separator ← next
    let word ← next
    return .again (words ++ [separator, word], word)
  else return .done { first, lead, words, last }

-- Either round takes a separator and a word, or nothing.
theorem nameRound_or (first : Nat) (lead : Option Nat) (bare last : Nat) (words : List Nat) (s : Input) :
    (nameRound first lead bare last s = .ok (.done (.between first lead bare last), s) ∧
      wordsRound first lead (words, last) s = .ok (.done { first, lead, words, last }, s)) ∨
    ∃ rest, nameRound first lead bare last s = .ok (.again (s.index + 1), ⟨s.index + 2, rest⟩) ∧
      wordsRound first lead (words, last) s =
        .ok (.again (words ++ [s.index, s.index + 1], s.index + 1), ⟨s.index + 2, rest⟩) := by
  obtain ⟨index, rest⟩ := s
  unfold nameRound wordsRound
  simp only [ahead_bind]
  match rest with
  | [] => exact .inl ⟨rfl, rfl⟩
  | [m] =>
      rw [if_neg (by simp), if_neg (by simp)]
      exact .inl ⟨rfl, rfl⟩
  | m :: n :: rest =>
      split
      · exact .inr ⟨rest, rfl, rfl⟩
      · exact .inl ⟨rfl, rfl⟩

-- The words that the loop collects are the tokens between the first of them and the last.
theorem rounds_words (first : Nat) (lead : Option Nat) (fuel : List Terminal) (hle : bare ≤ last)
    (hs : s.index = last + 1) :
    rounds (wordsRound first lead) fuel (List.range' bare (last + 1 - bare), last) s =
      rounds (nameRound first lead bare) fuel last s := by
  induction fuel generalizing last s with
  | nil =>
      rcases nameRound_or first lead bare last _ s with ⟨hround, hwords⟩ | ⟨rest, hround, hwords⟩
      · rw [rounds_of_done hwords, rounds_of_done hround, Name.between]
      · rw [rounds_nil_of_again hwords, rounds_nil_of_again hround]
  | cons m fuel ih =>
      rcases nameRound_or first lead bare last _ s with ⟨hround, hwords⟩ | ⟨rest, hround, hwords⟩
      · rw [rounds_of_done hwords, rounds_of_done hround, Name.between]
      · have hmore : List.range' bare (last + 1 - bare) ++ [last + 1, last + 1 + 1] =
            List.range' bare (last + 1 + 1 + 1 - bare) := by
          have happend := @range'_append_sub bare (last + 1) (last + 1 + 2) (by omega) (by omega)
          rwa [Nat.add_sub_cancel_left] at happend
        rw [rounds_of_again hwords, rounds_of_again hround, hs, hmore]
        exact ih (by omega) rfl

theorem anyName_index (h : anyName s = .ok (bare, t)) : t.index = bare + 1 := by
  obtain ⟨index, rest⟩ := s
  cases rest with
  | nil => cases h
  | cons m rest =>
      change (if m.kind.isName then next else unexpected .identifier) _ = _ at h
      split at h
      · cases h
        rfl
      · cases h

-- The words of a name follow one another, so where they begin and end tells which they are.
theorem qualifiedName_eq : qualifiedName = here >>= fun first =>
    acceptSymbol .backslash >>= fun lead => anyName >>= fun bare =>
      iterate (nameRound first lead bare) bare := by
  funext s
  refine bind_congr fun first t _ => bind_congr fun lead u _ => bind_congr fun bare v hbare => ?_
  have hwords := rounds_words first lead v.rest (Nat.le_refl bare) (anyName_index hbare)
  rwa [Nat.add_sub_cancel_left] at hwords

end Parser

end Census.Grammar
