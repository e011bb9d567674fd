import Census.Proofs.Token.Order

namespace Census

open Text

-- Whether a line ends with character `i`: at a line feed, and at a carriage return that no line
-- feed follows.
def Text.breaksAt (cs : List Char) (i : Nat) : Bool :=
  cs[i]? == some '\n' || cs[i]? == some '\r' && cs[i + 1]? != some '\n'

namespace Position

-- The position of character `i` of a text, counted over all that stands in front of it: the
-- line breaks, and the characters since the last one of them.
def ofIndex (cs : List Char) (i : Nat) : Position where
  line := 1 + (List.range i).countP (breaksAt cs)
  column := 1 + ((List.range i).reverse.takeWhile fun j => !breaksAt cs j).length

variable {cs : List Char}

theorem ofIndex_succ {i : Nat} {c : Char} (h : cs[i]? = some c) :
    ofIndex cs (i + 1) = (ofIndex cs i).after c cs[i + 1]? := by
  have hbreaks : breaksAt cs i = true ↔ c = '\n' ∨ c = '\r' ∧ cs[i + 1]? ≠ some '\n' := by
    simp [breaksAt, h]
  simp only [ofIndex, List.range_succ, List.countP_append, List.countP_singleton,
    List.reverse_append, List.reverse_singleton, List.singleton_append, List.takeWhile_cons, after]
  by_cases hb : breaksAt cs i = true
  · rcases hbreaks.1 hb with hc | hc <;> simp [hb, hc, Nat.add_assoc]
  · have hnot := mt hbreaks.2 hb
    rw [not_or] at hnot
    simp [hb, hnot, Nat.add_comm]

-- Counting on from a place gives the same as counting from the beginning.
theorem advance_ofIndex {k n : Nat} (h : k + n ≤ cs.length) :
    (ofIndex cs k).advance n (cs.drop k) = ofIndex cs (k + n) := by
  induction n generalizing k with
  | zero => rfl
  | succ n ih =>
      have hk : k < cs.length := by omega
      have hnext : (cs.drop (k + 1)).head? = cs[k + 1]? := by rw [List.head?_drop]
      rw [List.drop_eq_getElem_cons hk, advance, hnext,
        ← ofIndex_succ (List.getElem?_eq_getElem hk), ih (by omega), Nat.add_right_comm, Nat.add_assoc]

end Position

namespace Scan

variable {cs : List Char} {kind : TokenKind} {n : Nat}

theorem kind_of_number (found : number cs = .token kind n) : kind ≠ .markup := by
  unfold number at found
  dsimp only at found
  split at found
  · cases found
    nofun
  · split at found
    · cases found
      nofun
    · split at found <;> cases found <;> nofun

theorem kind_of_word (found : word cs = .token kind n) : kind ≠ .markup := by
  unfold word at found
  dsimp only at found
  split at found <;> cases found <;> nofun

theorem kind_of_blockComment {k : TokenKind} {opener : Nat} (hk : k ≠ .markup)
    (found : blockComment k opener cs = .token kind n) : kind ≠ .markup := by
  unfold blockComment at found
  split at found <;> cases found
  exact hk

theorem kind_of_quotedString {quote : Char} {closer : Closer}
    (found : quotedString quote closer cs = .token kind n) : kind ≠ .markup := by
  unfold quotedString at found
  split at found <;> cases found
  nofun

theorem kind_of_heredoc (found : heredoc cs = .token kind n) : kind ≠ .markup := by
  unfold heredoc at found
  dsimp only at found
  split at found
  · cases found
  · split at found <;> cases found
    nofun

theorem kind_of_rule : ∀ r ∈ rules, ∀ cs kind n, r.scan cs = .token kind n → kind ≠ .markup := by
  have fixed {k kind : TokenKind} {m n : Nat} (hk : k ≠ .markup)
      (found : Found.token k m = .token kind n) : kind ≠ .markup := by
    cases found
    exact hk
  simp only [rules, List.forall_mem_cons]
  exact ⟨fun _ _ _ => kind_of_word, fun _ _ _ => kind_of_number, fun _ _ _ => fixed (by decide),
    fun _ _ _ => fixed (by decide), fun _ _ _ => kind_of_quotedString,
    fun _ _ _ => kind_of_quotedString, fun _ _ _ => fixed (by decide),
    fun _ _ _ => fixed (by decide), fun _ _ _ => fixed (by decide),
    fun _ _ _ => kind_of_blockComment (by decide), fun _ _ _ => kind_of_blockComment (by decide),
    fun _ _ _ => kind_of_heredoc, fun _ _ _ => fixed (by decide), by simp⟩

-- In code there is no markup.
theorem kind_of_code (found : code cs = .token kind n) : kind ≠ .markup := by
  unfold code at found
  split at found
  · rename_i r h
    exact kind_of_rule r (List.mem_of_find?_eq_some h) cs kind n found
  · unfold mark at found
    split at found <;> cases found
    nofun

end Scan

namespace LexError

-- Whether the error says why no token can be read at the beginning of a text.
def Refuses : LexError → List Char → Prop
  | .unterminated _ closer, cs => Scan.code cs = .unterminated closer
  | .unexpectedCharacter _ c, cs => Scan.code cs = .unexpected ∧ cs.head? = some c

end LexError

-- A token that stands in the text `cs` behind `before`, with the positions of its first and of
-- its last character.
structure Token.StandsBehind (t : Token) (cs before : List Char) : Prop where
  nonempty : t.text.toList ≠ []
  start : t.start = offset (utf8Size before)
  stop : t.stop = offset (utf8Size (before ++ t.text.toList))
  span : t.span = ⟨.ofIndex cs before.length,
    .ofIndex cs (before.length + t.text.toList.length - 1)⟩

-- How tokens make up the part `rest` of the text `cs`, which stands behind `before`: there is
-- nothing but spaces between them, and none at all outside of code.
inductive Tiles (cs : List Char) :
    Mode → (before rest : List Char) → List Token → Option LexError → Prop
  | ended {mode : Mode} {before gap : List Char} (space : gap.all Scan.isSpace = true)
      (bare : mode = .markup → gap = []) : Tiles cs mode before gap [] none
  | refused {before gap rest : List Char} {c : Char} {e : LexError}
      (space : gap.all Scan.isSpace = true) (visible : Scan.isSpace c = false)
      (refuses : e.Refuses (c :: rest)) (here : e.position = .ofIndex cs (before ++ gap).length) :
      Tiles cs .code before (gap ++ c :: rest) [] (some e)
  | token {mode : Mode} {before gap rest : List Char} {t : Token} {tokens : List Token}
      {ending : Option LexError} (space : gap.all Scan.isSpace = true)
      (bare : mode = .markup → gap = []) (kind : mode = .code → t.kind ≠ .markup)
      (stands : t.StandsBehind cs (before ++ gap))
      (behind : Tiles cs (mode.behind t.kind) (before ++ gap ++ t.text.toList) rest tokens ending) :
      Tiles cs mode before (gap ++ (t.text.toList ++ rest)) (t :: tokens) ending

namespace Lexer

-- A reading point in the text `cs` behind `before`.
structure At (lexer : Lexer) (cs before : List Char) : Prop where
  split : cs = before ++ lexer.rest
  offset : lexer.offset = utf8Size before
  position : lexer.position = .ofIndex cs before.length

variable {lexer : Lexer} {cs before : List Char} {n : Nat}

theorem at_ofSource (source : String) : (ofSource source).At source.toList [] := ⟨rfl, rfl, rfl⟩

theorem At.advance (h : lexer.At cs before) (hn : n ≤ lexer.rest.length) :
    lexer.position.advance n lexer.rest = .ofIndex cs (before.length + n) := by
  have hdrop : cs.drop before.length = lexer.rest := by rw [h.split, List.drop_left]
  have hlength := congrArg List.length h.split
  rw [List.length_append] at hlength
  rw [h.position, ← hdrop]
  exact Position.advance_ofIndex (by omega)

theorem At.skip (h : lexer.At cs before) (hn : n ≤ lexer.rest.length) :
    (lexer.skip n).At cs (before ++ lexer.rest.take n) where
  split := by
    rw [List.append_assoc]
    exact h.split.trans (congrArg _ (List.take_append_drop n lexer.rest).symm)
  offset := by
    rw [utf8Size_append, ← h.offset]
    rfl
  position := by
    rw [List.length_append, List.length_take, Nat.min_eq_left hn]
    exact h.advance hn

theorem take_text (lexer : Lexer) (kind : TokenKind) (n : Nat) (mode : Mode) :
    (lexer.take kind n mode).1.text.toList = lexer.rest.take n := String.toList_ofList

-- The token that is taken stands where the lexer does.
theorem At.take (h : lexer.At cs before) (hn : n ≠ 0) (hle : n ≤ lexer.rest.length)
    (kind : TokenKind) (mode : Mode) : (lexer.take kind n mode).1.StandsBehind cs before := by
  have htext := lexer.take_text kind n mode
  have hlength : (lexer.take kind n mode).1.text.toList.length = n := by
    rw [htext, List.length_take, Nat.min_eq_left hle]
  refine ⟨?_, congrArg Token.offset h.offset, ?_, ?_⟩
  · intro hnil
    rw [hnil] at hlength
    exact hn hlength.symm
  · rw [htext]
    exact congrArg Token.offset (h.skip hle).offset
  · rw [hlength, Nat.add_sub_assoc (by omega), ← h.advance (by omega), ← h.position]
    rfl

theorem gap_space (lexer : Lexer) : (lexer.rest.take lexer.gap).all Scan.isSpace = true := by
  unfold gap
  split
  · rfl
  · rw [take_run]
    exact List.all_takeWhile

theorem gap_le (lexer : Lexer) : lexer.gap ≤ lexer.rest.length := by
  unfold gap
  split
  · exact Nat.zero_le _
  · exact run_le_length _ _

theorem gap_bare (h : lexer.mode = .markup) : lexer.rest.take lexer.gap = [] := by
  rw [gap, h]
  rfl

theorem gap_visible (h : lexer.mode = .code) {c : Char} {rest : List Char}
    (hrest : lexer.rest.drop lexer.gap = c :: rest) : Scan.isSpace c = false := by
  rw [gap, h, drop_run] at hrest
  have hnot := List.head?_dropWhile_not Scan.isSpace lexer.rest
  rw [hrest] at hnot
  simpa using hnot

theorem found_kind (h : lexer.mode = .code) {kind : TokenKind} (hfound : lexer.found = .token kind n) :
    kind ≠ .markup := by
  rw [found, h] at hfound
  exact Scan.kind_of_code hfound

-- Nothing is refused outside of code.
theorem found_refused (h : ∀ kind n, lexer.found ≠ .token kind n) :
    lexer.mode = .code ∧ lexer.found = Scan.code (lexer.rest.drop lexer.gap) := by
  unfold found at h ⊢
  cases hmode : lexer.mode with
  | code => exact ⟨rfl, rfl⟩
  | markup =>
      rw [hmode] at h
      cases hlength : Scan.markupLength lexer.rest with
      | zero => exact absurd (by simp [hlength]) (h .openTag 5)
      | succ n => exact absurd (by simp [hlength]) (h .markup (n + 1))

-- The tokens from a reading point on make up the text from there on.
theorem tiles (lexer : Lexer) {cs before : List Char} (h : lexer.At cs before) :
    Tiles cs lexer.mode before lexer.rest lexer.tokens.1 lexer.tokens.2 := by
  have hsplit := List.take_append_drop lexer.gap lexer.rest
  have hhere := h.skip lexer.gap_le
  cases hrest : lexer.rest.drop lexer.gap with
  | nil =>
      rw [tokens_of_none (next?_of_nil hrest), ← hsplit, hrest, List.append_nil]
      exact .ended lexer.gap_space gap_bare
  | cons c rest =>
      have hnext := next?_of_cons hrest
      have refused (e : LexError) (hfound : ∀ kind n, lexer.found ≠ .token kind n)
          (he : e.Refuses (c :: rest)) (hposition : e.position = (lexer.skip lexer.gap).position)
          (herror : lexer.next? = some (.error e)) :
          Tiles cs lexer.mode before lexer.rest lexer.tokens.1 lexer.tokens.2 := by
        have hmode := (found_refused hfound).1
        rw [tokens_of_error herror, hmode]
        rw [← hsplit, hrest]
        exact .refused lexer.gap_space (gap_visible hmode hrest) he
          (hposition.trans hhere.position)
      cases hfound : lexer.found with
      | token kind n =>
          rw [hfound] at hnext
          have hle := (parted_found hrest hfound).1
          rw [← show (lexer.skip lexer.gap).rest = c :: rest from hrest] at hle
          have hstands := hhere.take (Nat.pos_iff_ne_zero.1 (found_pos hfound)) hle kind
            (lexer.mode.behind kind)
          have htext := (lexer.skip lexer.gap).take_text kind n (lexer.mode.behind kind)
          have hbehind := hhere.skip hle
          have hrest' : lexer.rest.drop lexer.gap = (lexer.skip lexer.gap).rest.take n ++
              ((lexer.skip lexer.gap).skip n).rest := (List.take_append_drop n _).symm
          have := next?_shorter hnext
          rw [← htext] at hbehind hrest'
          rw [tokens_of_next? hnext, ← hsplit, hrest']
          exact .token lexer.gap_space gap_bare (fun hmode => found_kind hmode hfound) hstands
            (tiles ((lexer.skip lexer.gap).take kind n (lexer.mode.behind kind)).2
              ⟨hbehind.split, hbehind.offset, hbehind.position⟩)
      | unterminated closer =>
          have hnot (kind : TokenKind) (n : Nat) : lexer.found ≠ .token kind n := by simp [hfound]
          have hcode := (found_refused hnot).2
          rw [hrest, hfound] at hcode
          rw [hfound] at hnext
          exact refused (.unterminated _ closer) hnot hcode.symm rfl hnext
      | unexpected =>
          have hnot (kind : TokenKind) (n : Nat) : lexer.found ≠ .token kind n := by simp [hfound]
          have hcode := (found_refused hnot).2
          rw [hrest, hfound] at hcode
          rw [hfound] at hnext
          exact refused (.unexpectedCharacter _ c) hnot ⟨hcode.symm, rfl⟩ rfl hnext
termination_by lexer.rest.length

end Lexer

namespace Tiles

variable {cs before rest : List Char} {mode : Mode} {tokens : List Token} {ending : Option LexError}

theorem stands (h : Tiles cs mode before rest tokens ending) : ∀ t ∈ tokens, ∃ skipped after,
    rest = skipped ++ (t.text.toList ++ after) ∧ t.StandsBehind cs (before ++ skipped) := by
  induction h with
  | ended | refused => simp
  | @token mode before gap rest t tokens ending space bare kind stands behind ih =>
      rintro u hu
      rcases List.mem_cons.1 hu with rfl | hu
      · exact ⟨gap, rest, rfl, stands⟩
      · obtain ⟨skipped, after, rfl, hu⟩ := ih u hu
        exact ⟨gap ++ (t.text.toList ++ skipped), after, by simp, by simpa using hu⟩

-- The text that is refused stands behind the last token and the spaces that follow it.
theorem refused_behind (h : Tiles cs mode before rest tokens ending) {e : LexError}
    (he : ending = some e) : ∃ read gap c after,
    before ++ rest = read ++ (gap ++ c :: after) ∧
      (tokens.getLast?.elim (read = before) fun t => t.stop = Token.offset (utf8Size read)) ∧
      gap.all Scan.isSpace = true ∧ Scan.isSpace c = false ∧ e.Refuses (c :: after) ∧
      e.position = .ofIndex cs (read ++ gap).length := by
  induction h with
  | ended => cases he
  | @refused before gap rest c _ space visible refuses here =>
      cases he
      exact ⟨before, gap, c, rest, rfl, rfl, space, visible, refuses, here⟩
  | @token mode before gap rest t tokens ending space bare kind stands behind ih =>
      obtain ⟨read, gap', c, after, hsplit, hlast, hrefused⟩ := ih he
      refine ⟨read, gap', c, after, by simpa using hsplit, ?_, hrefused⟩
      cases tokens with
      | nil =>
          have hread : read = before ++ gap ++ t.text.toList := hlast
          rw [hread]
          exact stands.stop
      | cons u tokens => rwa [List.getLast?_cons_cons]

end Tiles

theorem tokenize_tiles (source : String) :
    Tiles source.toList .markup [] source.toList (tokenize source).1 (tokenize source).2 := by
  rw [tokenize_eq]
  exact (Lexer.ofSource source).tiles (Lexer.at_ofSource source)

-- The positions that are counted along the way, from one token to the next, are those that come
-- out when they are counted over the whole source; so are those of errors.
theorem tokenize_positions (source : String) :
    (∀ t ∈ (tokenize source).1, ∃ before after,
      source.toList = before ++ (t.text.toList ++ after) ∧
        t.StandsBehind source.toList before) ∧
    (∀ e, (tokenize source).2 = some e → ∃ read gap c after,
      source.toList = read ++ (gap ++ c :: after) ∧
        ((tokenize source).1.getLast?.elim (read = []) fun t =>
          t.stop = Token.offset (utf8Size read)) ∧
        gap.all Scan.isSpace = true ∧ Scan.isSpace c = false ∧ e.Refuses (c :: after) ∧
        e.position = .ofIndex source.toList (read ++ gap).length) ∧
    (∀ t ∈ (tokenize source).1, t.span.start ≤ t.span.stop) ∧
    (tokenize source).1.Pairwise fun a b => a.span.stop < b.span.start :=
  ⟨(tokenize_tiles source).stands, fun _ => (tokenize_tiles source).refused_behind,
    fun t ht => (tokenize_behind t ht).2, tokenize_ordered source⟩

end Census
