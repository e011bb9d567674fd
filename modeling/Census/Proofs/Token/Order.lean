import Census.Proofs.Token.Reading

namespace Census

namespace Position

variable {p q r : Position}

theorem le_rfl : p ≤ p := .inr ⟨rfl, Nat.le_refl _⟩

theorem le_of_lt (h : p < q) : p ≤ q := by
  rw [lt_def] at h
  rw [le_def]
  omega

theorem le_trans (h : p ≤ q) (h' : q ≤ r) : p ≤ r := by
  rw [le_def] at *
  omega

theorem lt_of_lt_of_le (h : p < q) (h' : q ≤ r) : p < r := by
  rw [le_def] at h'
  rw [lt_def] at *
  omega

theorem lt_of_le_of_lt (h : p ≤ q) (h' : q < r) : p < r := by
  rw [le_def] at h
  rw [lt_def] at *
  omega

theorem lt_irrefl (p : Position) : ¬p < p := by
  rw [lt_def]
  omega

theorem lt_trans (h : p < q) (h' : q < r) : p < r := lt_of_lt_of_le h (le_of_lt h')

theorem lt_after (p : Position) (c : Char) (next : Option Char) : p < p.after c next := by
  simp only [after, lt_def]
  split
  · exact .inl (Nat.lt_succ_self _)
  · split
    · exact .inl (Nat.lt_succ_self _)
    · exact .inr ⟨rfl, Nat.lt_succ_self _⟩

theorem le_advance (p : Position) (n : Nat) (cs : List Char) : p ≤ p.advance n cs := by
  induction n generalizing p cs with
  | zero => exact le_rfl
  | succ n ih =>
      cases cs with
      | nil => exact le_rfl
      | cons c rest => exact le_trans (le_of_lt (p.lt_after c _)) (ih _ rest)

-- Every character moves the position on.
theorem advance_lt_succ (p : Position) {n : Nat} {cs : List Char} (h : n < cs.length) :
    p.advance n cs < p.advance (n + 1) cs := by
  induction n generalizing p cs with
  | zero =>
      cases cs with
      | nil => simp at h
      | cons c rest => exact p.lt_after c _
  | succ n ih =>
      cases cs with
      | nil => simp at h
      | cons c rest => exact ih _ (Nat.lt_of_succ_lt_succ h)

end Position

namespace Lexer

variable {lexer next : Lexer} {token : Token}

-- A token stands where the lexer is or behind the space there, and the next one behind it.
theorem next?_span (h : lexer.next? = some (.ok (token, next))) :
    lexer.position ≤ token.span.start ∧ token.span.start ≤ token.span.stop ∧
      (next.rest ≠ [] → token.span.stop < next.position) := by
  have taken (here : Lexer) (hle : lexer.position ≤ here.position) (kind : TokenKind) (n : Nat)
      (hn : 0 < n) (mode : Mode) (h : here.take kind n mode = (token, next)) :
      lexer.position ≤ token.span.start ∧ token.span.start ≤ token.span.stop ∧
        (next.rest ≠ [] → token.span.stop < next.position) := by
    cases h
    refine ⟨hle, Position.le_advance _ _ _, fun hrest => ?_⟩
    have hlen : n < here.rest.length := by
      refine Nat.lt_of_not_le fun hle => hrest ?_
      exact List.drop_eq_nil_of_le hle
    have hlt : here.position.advance (n - 1) here.rest < here.position.advance (n - 1 + 1) here.rest :=
      Position.advance_lt_succ _ (by omega)
    rwa [Nat.sub_add_cancel hn] at hlt
  unfold next? at h
  split at h
  · split at h
    · cases h
    · split at h
      · exact taken lexer Position.le_rfl _ _ (by omega) _ (Except.ok.inj (Option.some.inj h))
      · exact taken lexer Position.le_rfl _ _ (by omega) _ (Except.ok.inj (Option.some.inj h))
  · simp only at h
    split at h
    · cases h
    · split at h
      · rename_i found
        exact taken lexer.skipSpace (Position.le_advance _ _ _) _ _ (Scan.code_pos found) _
          (Except.ok.inj (Option.some.inj h))
      · cases h
      · cases h

theorem next?_rest_ne_nil (h : lexer.next? = some (.ok (token, next))) : lexer.rest ≠ [] := by
  have hshort := next?_shorter h
  rintro hnil
  simp [hnil] at hshort

theorem tokens_eq_nil (h : ∀ token next, lexer.next? ≠ some (.ok (token, next))) :
    lexer.tokens.1 = [] := by
  rw [tokens]
  split
  · rfl
  · rfl
  · exact absurd ‹_› (h _ _)

-- Reading tokens one by one: a property of lists of tokens holds of all tokens of a lexer.
theorem tokens_induction {P : Lexer → List Token → Prop} (nil : ∀ lexer, P lexer [])
    (cons : ∀ lexer token next, lexer.next? = some (.ok (token, next)) → P next next.tokens.1 →
      P lexer (token :: next.tokens.1)) (lexer : Lexer) : P lexer lexer.tokens.1 := by
  by_cases h : ∃ token next, lexer.next? = some (.ok (token, next))
  · obtain ⟨token, next, h⟩ := h
    have := next?_shorter h
    rw [tokens_of_next? h]
    exact cons lexer token next h (tokens_induction nil cons next)
  · rw [tokens_eq_nil fun token next he => h ⟨token, next, he⟩]
    exact nil lexer
termination_by lexer.rest.length

theorem tokens_behind (lexer : Lexer) : ∀ t ∈ lexer.tokens.1,
    lexer.rest ≠ [] ∧ lexer.position ≤ t.span.start ∧ t.span.start ≤ t.span.stop := by
  refine tokens_induction (P := fun lexer ts => ∀ t ∈ ts,
    lexer.rest ≠ [] ∧ lexer.position ≤ t.span.start ∧ t.span.start ≤ t.span.stop) (by simp) ?_ lexer
  intro lexer token next h ih t ht
  obtain ⟨hstart, hspan, hnext⟩ := next?_span h
  refine ⟨next?_rest_ne_nil h, ?_⟩
  rcases List.mem_cons.1 ht with rfl | ht
  · exact ⟨hstart, hspan⟩
  · obtain ⟨hrest, hbehind, hle⟩ := ih t ht
    refine ⟨?_, hle⟩
    exact Position.le_trans hstart (Position.le_trans hspan
      (Position.le_trans (Position.le_of_lt (hnext hrest)) hbehind))

theorem tokens_ordered (lexer : Lexer) :
    lexer.tokens.1.Pairwise fun a b => a.span.stop < b.span.start := by
  refine tokens_induction (P := fun _ ts => ts.Pairwise fun a b => a.span.stop < b.span.start)
    (fun _ => .nil) (fun lexer token next h ih => .cons (fun t ht => ?_) ih) lexer
  obtain ⟨hrest, hbehind, -⟩ := tokens_behind next t ht
  exact Position.lt_of_lt_of_le ((next?_span h).2.2 hrest) hbehind

end Lexer

theorem tokenize_behind {source : String} : ∀ t ∈ (tokenize source).1,
    Position.first ≤ t.span.start ∧ t.span.start ≤ t.span.stop := by
  rw [tokenize_eq]
  exact fun t ht => (Lexer.tokens_behind _ t ht).2

theorem tokenize_ordered (source : String) :
    (tokenize source).1.Pairwise fun a b => a.span.stop < b.span.start := by
  rw [tokenize_eq]
  exact Lexer.tokens_ordered _

-- The tokens of a source that mean something to the grammar.
def significantTokens (source : String) : List Token :=
  (tokenize source).1.filter (·.kind.isSignificant)

theorem Lexeme.ofTokensFrom_tokens (doc : Option String) (tokens : List Token) :
    (ofTokensFrom doc tokens).map (·.token) = tokens.filter (·.kind.isSignificant) := by
  induction tokens generalizing doc with
  | nil => rfl
  | cons t rest ih =>
      rw [ofTokensFrom, List.filter_cons]
      split
      · simp [ih]
      · split <;> exact ih _

theorem significantTokens_span (source : String) :
    ∀ t ∈ significantTokens source, t.span.start ≤ t.span.stop := fun t ht =>
  (tokenize_behind t (List.mem_filter.1 ht).1).2

-- Each significant token ends before the next one starts.
theorem significantTokens_ordered (source : String) :
    (significantTokens source).Pairwise fun a b => a.span.stop < b.span.start :=
  (tokenize_ordered source).filter _

end Census
