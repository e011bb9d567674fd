import Census.Proofs.Token.Order

namespace Census

variable {tokens front after : List Token} {t : Token}

namespace Token

-- The tokens in front of the one that starts at a position, the nearest first.
def before (tokens : List Token) (p : Position) : List Token :=
  (tokens.takeWhile fun t => t.span.start ≠ p).reverse

-- The doc comment that waits behind some tokens, the nearest first: the last one that no
-- significant token follows.
def waitingDoc? : List Token → Option Token
  | [] => none
  | t :: back =>
      if t.kind.isSignificant then none
      else if t.kind = .docComment then some t
      else waitingDoc? back

theorem before_eq (h : (front ++ t :: after).Pairwise fun a b => a.span.start ≠ b.span.start) :
    before (front ++ t :: after) t.span.start = front.reverse := by
  have hfront : ∀ s ∈ front, decide (s.span.start ≠ t.span.start) = true := fun s hs =>
    decide_eq_true ((List.pairwise_append.1 h).2.2 s hs t List.mem_cons_self)
  rw [before, List.takeWhile_append_of_pos hfront, List.takeWhile_cons_of_neg (by simp), List.append_nil]

-- None but insignificant tokens follow a doc comment that waits.
theorem waitingDoc?_eq_some {back : List Token} {doc : Token} (h : waitingDoc? back = some doc) :
    ∃ gap rest, back = gap ++ doc :: rest ∧ ∀ s ∈ gap ++ [doc], s.kind.isSignificant = false := by
  induction back with
  | nil => cases h
  | cons s back ih =>
      rw [waitingDoc?] at h
      split at h
      · cases h
      · rename_i hs
        have hplain : s.kind.isSignificant = false := by simpa using hs
        split at h
        · obtain rfl := Option.some.inj h
          exact ⟨[], back, rfl, List.forall_mem_singleton.2 hplain⟩
        · obtain ⟨gap, rest, rfl, hgap⟩ := ih h
          exact ⟨s :: gap, rest, rfl, List.forall_mem_cons.2 ⟨hplain, hgap⟩⟩

end Token

namespace Lexeme

-- What is in front of a significant token, and the documentation that waits there. `back` are the
-- tokens that have been read before.
theorem of_getElem? {back rest : List Token} {k : Nat} {lexeme : Lexeme}
    (h : (ofTokensFrom ((Token.waitingDoc? back).map (·.text)) rest)[k]? = some lexeme) :
    ∃ front after, rest = front ++ lexeme.token :: after ∧
      (front.filter (·.kind.isSignificant)).length = k ∧
      lexeme.doc = (Token.waitingDoc? (front.reverse ++ back)).map (·.text) := by
  induction rest generalizing back k with
  | nil => cases h
  | cons t rest ih =>
      -- read on behind a token, which then is the nearest
      have step {k' : Nat} (hk : ([t].filter (·.kind.isSignificant)).length + k' = k)
          (h : (ofTokensFrom ((Token.waitingDoc? (t :: back)).map (·.text)) rest)[k']? = some lexeme) :
          ∃ front after, t :: rest = front ++ lexeme.token :: after ∧
            (front.filter (·.kind.isSignificant)).length = k ∧
            lexeme.doc = (Token.waitingDoc? (front.reverse ++ back)).map (·.text) := by
        obtain ⟨front, after, rfl, hlength, hdoc⟩ := ih h
        refine ⟨t :: front, after, rfl, ?_, ?_⟩
        · rw [← hk, ← hlength, ← List.length_append, ← List.filter_append]
          rfl
        · rw [hdoc, List.reverse_cons, List.append_assoc, List.singleton_append]
      rw [ofTokensFrom] at h
      split at h
      · rename_i hsignificant
        cases k with
        | zero =>
            obtain rfl := Option.some.inj h
            exact ⟨[], rest, rfl, rfl, rfl⟩
        | succ k =>
            have hk : ([t].filter (·.kind.isSignificant)).length + k = k + 1 := by
              simp [hsignificant, Nat.add_comm]
            refine step hk ?_
            rwa [Token.waitingDoc?, if_pos hsignificant]
      · rename_i hplain
        have hk : ([t].filter (·.kind.isSignificant)).length + k = k := by simp [hplain]
        split at h
        · refine step hk ?_
          rwa [Token.waitingDoc?, if_neg hplain, if_pos ‹_›]
        · refine step hk ?_
          rwa [Token.waitingDoc?, if_neg hplain, if_neg ‹_›]

end Lexeme

end Census
