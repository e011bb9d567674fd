import Census.Proofs.Token.Place
import Census.Text.Blank

namespace Census

open Text

-- Whether a text may be that of a token: punctuation has fixed spellings, words are words, and a
-- number begins with a digit or a point.
def TokenKind.Spells : TokenKind → List Char → Prop
  | .symbol s, text => (String.ofList text, s) ∈ Symbol.spellings
  | .identifier, text | .keyword _, text => text.all Scan.isNamePart = true
  | .integer, text | .float, text => Scan.headIs (fun c => c.isDigit || c = '.') text = true
  | _, _ => True

-- The kinds of tokens that can be spelled in any way.
def TokenKind.isFree : TokenKind → Bool
  | .symbol _ | .identifier | .keyword _ | .integer | .float => false
  | _ => true

theorem TokenKind.spells_of_isFree {kind : TokenKind} (h : kind.isFree = true) (text : List Char) :
    kind.Spells text := by
  cases kind <;> trivial

namespace Scan

variable {cs : List Char} {kind : TokenKind} {n : Nat}

theorem toNat_of_isNamePart {c : Char} (h : isNamePart c = true) : 48 ≤ c.toNat ∧ c.toNat ≤ 122 := by
  have hrange {low high : UInt32} (h : low ≤ c.val ∧ c.val ≤ high) :
      low.toNat ≤ c.toNat ∧ c.toNat ≤ high.toNat :=
    h.imp UInt32.le_iff_toNat_le.1 UInt32.le_iff_toNat_le.1
  have hpart : (((c.isUpper || c.isLower) || c.isDigit) || decide (c = '_')) = true := h
  simp only [Bool.or_eq_true, decide_eq_true_eq] at hpart
  rcases hpart with ((h | h) | h) | rfl
  · have hupper := hrange (of_decide_eq_true h)
    exact ⟨Nat.le_trans (by decide) hupper.1, Nat.le_trans hupper.2 (by decide)⟩
  · have hlower := hrange ((Bool.and_eq_true_iff.1 h).imp of_decide_eq_true of_decide_eq_true)
    exact ⟨Nat.le_trans (by decide) hlower.1, Nat.le_trans hlower.2 (by decide)⟩
  · have hdigit := hrange ((Bool.and_eq_true_iff.1 h).imp of_decide_eq_true of_decide_eq_true)
    exact ⟨Nat.le_trans (by decide) hdigit.1, Nat.le_trans hdigit.2 (by decide)⟩
  · decide

theorem isBlank_of_isNamePart {c : Char} (h : isNamePart c = true) : Text.isBlank c = false := by
  obtain ⟨hlow, hhigh⟩ := toNat_of_isNamePart h
  simp only [Text.isBlank, Bool.or_eq_false_iff, Bool.and_eq_false_iff, decide_eq_false_iff_not]
  omega

theorem spells_of_word (found : word cs = .token kind n) : kind.Spells (cs.take n) := by
  have hword : (cs.take (cs.takeWhile isNamePart).length).all isNamePart = true := by
    rw [← List.prefix_iff_eq_take.1 (List.takeWhile_prefix _)]
    exact List.all_takeWhile
  unfold word at found
  dsimp only at found
  split at found <;>
  · cases found
    exact hword

theorem spells_of_mark (found : mark cs = .token kind n) : kind.Spells (cs.take n) := by
  unfold mark at found
  split at found
  · rename_i text s h
    cases found
    have hfits := List.find?_some (p := fun s : String × Symbol => startsWith s.1 cs) h
    obtain ⟨rest, rfl⟩ := List.isPrefixOf_iff_prefix.1 hfits
    have htext : (text.toList ++ rest).take text.length = text.toList := List.take_left' String.length_toList
    rw [htext, TokenKind.Spells, String.ofList_toList]
    exact List.mem_of_find?_eq_some h
  · cases found

-- What is read as a number begins as the text does.
theorem spells_of_number (happlies : headIs Char.isDigit cs = true) (found : number cs = .token kind n) :
    kind.Spells (cs.take n) := by
  have hhead : headIs (fun c => c.isDigit || c = '.') (cs.take n) = true := by
    obtain ⟨m, rfl⟩ := Nat.exists_eq_add_of_lt (number_pos happlies found)
    cases cs with
    | nil => cases happlies
    | cons c rest =>
        have hdigit : c.isDigit = true := happlies
        simp [headIs, hdigit]
  unfold number at found
  dsimp only at found
  split at found
  · cases found
    exact hhead
  · split at found
    · cases found
      exact hhead
    · split at found <;>
      · cases found
        exact hhead

theorem spells_of_fraction (happlies : startsWith "." cs = true)
    (found : fractionNumber cs = .token kind n) : kind.Spells (cs.take n) := by
  obtain ⟨rest, rfl⟩ := List.isPrefixOf_iff_prefix.1 happlies
  cases found
  rw [Nat.add_assoc, Nat.add_comm 1]
  rfl

-- Only the first rule reads words, only two rules read numbers, and none reads punctuation.
theorem spells_of_rule : ∀ r ∈ rules, ∀ cs kind n, r.applies cs = true → r.scan cs = .token kind n →
    kind.Spells (cs.take n) := by
  have free {k kind : TokenKind} {m n : Nat} {text : List Char}
      (found : Found.token k m = .token kind n) (hk : k.isFree = true) : kind.Spells text := by
    cases found
    exact TokenKind.spells_of_isFree hk text
  have block {k : TokenKind} {opener : Nat} {cs : List Char} {kind : TokenKind} {n : Nat}
      (hk : k.isFree = true) (found : blockComment k opener cs = .token kind n) :
      kind.Spells (cs.take n) := by
    unfold blockComment at found
    split at found
    · exact free found hk
    · cases found
  have quoted {quote : Char} {closer : Closer} {cs : List Char} {kind : TokenKind} {n : Nat}
      (found : quotedString quote closer cs = .token kind n) : kind.Spells (cs.take n) := by
    unfold quotedString at found
    split at found
    · exact free found rfl
    · cases found
  have heredoc {cs : List Char} {kind : TokenKind} {n : Nat} (found : heredoc cs = .token kind n) :
      kind.Spells (cs.take n) := by
    unfold Scan.heredoc at found
    dsimp only at found
    split at found
    · cases found
    · split at found
      · cases found
      · exact free found rfl
  simp only [rules, List.forall_mem_cons]
  exact ⟨fun _ _ _ _ => spells_of_word, fun _ _ _ => spells_of_number, fun _ _ _ _ h => free h rfl,
    fun _ _ _ h => spells_of_fraction (Bool.and_eq_true_iff.1 h).1,
    fun _ _ _ _ => quoted, fun _ _ _ _ => quoted, fun _ _ _ _ h => free h rfl,
    fun _ _ _ _ h => free h rfl, fun _ _ _ _ h => free h rfl, fun _ _ _ _ => block rfl,
    fun _ _ _ _ => block rfl, fun _ _ _ _ => heredoc, fun _ _ _ _ h => free h rfl, by simp⟩

theorem spells_of_code (found : code cs = .token kind n) : kind.Spells (cs.take n) := by
  unfold code at found
  split at found
  · rename_i r h
    exact spells_of_rule r (List.mem_of_find?_eq_some h) cs kind n
      (List.find?_some (p := fun r : Rule => r.applies cs) h) found
  · exact spells_of_mark found

end Scan

namespace Lexer

theorem found_spells {lexer : Lexer} {kind : TokenKind} {n : Nat} (h : lexer.found = .token kind n) :
    kind.Spells ((lexer.rest.drop lexer.gap).take n) := by
  unfold found at h
  split at h
  · split at h <;>
    · cases h
      trivial
  · exact Scan.spells_of_code h

theorem next?_spells {lexer next : Lexer} {token : Token}
    (h : lexer.next? = some (.ok (token, next))) : token.kind.Spells token.text.toList := by
  cases hrest : lexer.rest.drop lexer.gap with
  | nil =>
      rw [next?_of_nil hrest] at h
      cases h
  | cons c rest =>
      rw [next?_of_cons hrest] at h
      cases hfound : lexer.found with
      | token kind n =>
          rw [hfound] at h
          obtain ⟨rfl, -⟩ := Prod.mk.inj (Except.ok.inj (Option.some.inj h))
          have htext := take_text (lexer.skip lexer.gap) kind n (lexer.mode.behind kind)
          exact htext.symm ▸ found_spells hfound
      | unterminated closer =>
          rw [hfound] at h
          cases h
      | unexpected =>
          rw [hfound] at h
          cases h

end Lexer

theorem tokenize_spells {source : String} :
    ∀ t ∈ (tokenize source).1, t.kind.Spells t.text.toList := by
  rw [tokenize_eq]
  exact Lexer.tokens_induction (P := fun _ ts => ∀ t ∈ ts, t.kind.Spells t.text.toList) (by simp)
    (fun _ _ _ h ih => List.forall_mem_cons.2 ⟨Lexer.next?_spells h, ih⟩) _

end Census
