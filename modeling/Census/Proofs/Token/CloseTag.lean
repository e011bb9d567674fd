import Census.Proofs.Token.Reformatting

namespace Census

open Text

namespace Scan

variable {text more front rest : List Char} {kind : TokenKind} {n : Nat}

-- What ends a line comment.
def lineEnds : List String := ["\n", "\r", "?>"]

def endsLine (cs : List Char) : Bool := startsWith "\n" cs || startsWith "\r" cs || startsWith "?>" cs

theorem endsLine_iff {cs : List Char} : endsLine cs = true ↔ ∃ s ∈ lineEnds, s.toList <+: cs := by
  simp only [endsLine, startsWith, Bool.or_eq_true, List.isPrefixOf_iff_prefix, lineEnds, List.mem_cons,
    List.not_mem_nil, or_false, exists_eq_or_imp, exists_eq_left, or_assoc]

-- A line comment reaches up to the end of its line, to a tag that closes code, or to the end of
-- the source.
theorem lineComment_ends (h : code (text ++ more) = .token .lineComment text.length) :
    (∀ m < text.length, endsLine ((text ++ more).drop m) = false) ∧
      (more = [] ∨ endsLine more = true) := by
  obtain ⟨p, opening, part, rfl, hp, hkind, hread⟩ := longest_of_code h
  cases p with
  | opener o =>
      obtain rfl : opening = o.text.toList := hp.mem
      rw [String.length_toList] at hread
      have hends := (Opener.read_eq_token.1 hread).2
      obtain ⟨hlength, hopener⟩ : lineCommentLength (part ++ more) = part.length ∧
          ∀ m < o.text.toList.length, ∀ rest, endsLine ((o.text.toList ++ rest).drop m) = false := by
        cases o with
        | slashes =>
            refine ⟨hends, fun m hm rest => ?_⟩
            match m, hm with
            | 0, _ | 1, _ => rfl
        | hash =>
            refine ⟨hends, fun m hm rest => ?_⟩
            match m, hm with
            | 0, _ => rfl
        | _ => cases hkind
      refine ⟨fun m hm => ?_, holds_of_seek_getD hlength⟩
      rw [List.length_append] at hm
      rw [List.append_assoc]
      by_cases hm' : m < o.text.toList.length
      · exact hopener m hm' _
      · rw [List.drop_append, List.drop_eq_nil_of_le (Nat.not_lt.1 hm'), List.nil_append]
        refine seek_before (Nat.lt_of_lt_of_eq ?_ hlength.symm)
        omega
  | _ => cases hkind

theorem lineEnds_of_lineComment (h : code (text ++ more) = .token .lineComment text.length) :
    (∀ s ∈ lineEnds, ¬s.toList <:+: text) ∧ (more = [] ∨ ∃ s ∈ lineEnds, s.toList <+: more) := by
  obtain ⟨hbefore, hend⟩ := lineComment_ends h
  refine ⟨?_, hend.imp_right endsLine_iff.1⟩
  rintro s hs ⟨front, back, htext⟩
  have hpos : ∀ s ∈ lineEnds, 0 < s.toList.length := by decide
  have hshort : front.length < text.length := by
    have := hpos s hs
    rw [← htext, List.length_append, List.length_append]
    omega
  have hnot := hbefore front.length hshort
  rw [← htext, List.append_assoc, List.append_assoc, List.drop_left] at hnot
  rw [endsLine_iff.2 ⟨s, hs, List.prefix_append _ _⟩] at hnot
  cases hnot

theorem getLast?_quoted {quote : Char} (h : quotedLength quote text = some n) :
    (text.take n).getLast? = some quote := by
  induction text using quotedLength.induct quote generalizing n with
  | case1 => cases h
  | case2 => cases h
  | case3 c rest ih =>
      rw [quotedLength_pair] at h
      obtain ⟨m, hm, rfl⟩ := Option.map_eq_some_iff.1 h
      rw [List.take_succ_cons, List.take_succ_cons, List.getLast?_cons, List.getLast?_cons, ih hm]
      rfl
  | case4 rest hq =>
      rw [quotedLength_quote hq] at h
      cases h
      rfl
  | case5 c rest hc hq ih =>
      rw [quotedLength_other hc hq] at h
      obtain ⟨m, hm, rfl⟩ := Option.map_eq_some_iff.1 h
      rw [List.take_succ_cons, List.getLast?_cons, ih hm]
      rfl

theorem getLast?_comment (h : seek (startsWith "*/") (text ++ more) = some n)
    (hlength : text.length = n + 2) : text.getLast? = some '/' := by
  obtain ⟨rest, hrest⟩ := startsWith_iff.1 (seek_holds h)
  rw [List.drop_append_of_le_length (by omega)] at hrest
  have hshort : (text.drop n).length = 2 := by
    rw [List.length_drop]
    omega
  have hend : text.drop n = "*/".toList := (List.append_inj hrest hshort).1
  rw [← List.take_append_drop n text, hend, List.getLast?_append]
  rfl

theorem Closed.getLast? {indent quote label margin : List Char}
    (h : Closed (text ++ more) indent quote label front margin more) :
    ∃ c ∈ text.getLast?, isNamePart c = true := by
  obtain ⟨hstart, hparts⟩ := Pattern.mem_name.1 h.headed.named
  have hne : label ≠ [] := by
    rintro rfl
    cases hstart
  refine ⟨label.getLast hne, ?_, List.all_eq_true.1 hparts _ (List.getLast_mem hne)⟩
  have htext : text = indent ++ (quote ++ (label ++ (quote ++ (front ++ '\n' :: margin)))) ++ label := by
    rw [h.text_eq]
    simp only [List.append_assoc, List.cons_append]
  rw [htext, List.getLast?_append, List.getLast?_eq_some_getLast hne]
  rfl

-- A text ends with neither character of a tag that closes code.
def Sealed (text : List Char) : Prop := ∃ c ∈ text.getLast?, c ≠ '?' ∧ c ≠ '>'

theorem Sealed.behind (h : Sealed text) (opening : List Char) : Sealed (opening ++ text) := by
  obtain ⟨c, hc, hne⟩ := h
  rw [Option.mem_def] at hc
  refine ⟨c, ?_, hne⟩
  rw [List.getLast?_append, hc]
  rfl

-- So does a string, and a comment between marks.
theorem sealed_of_ends {o : Opener} (h : o.Ends text more) (hkind : o.kind ≠ .lineComment) :
    Sealed text := by
  have marked (h : ∃ n, seek (startsWith "*/") (text ++ more) = some n ∧ text.length = n + 2) :
      Sealed text := by
    obtain ⟨n, hseek, hlength⟩ := h
    exact ⟨'/', getLast?_comment hseek hlength, by decide⟩
  have quoted (quote : Char) (hquote : quote ≠ '?' ∧ quote ≠ '>')
      (h : quotedLength quote (text ++ more) = some text.length) : Sealed text := by
    have hlast := getLast?_quoted h
    rw [List.take_left] at hlast
    exact ⟨quote, hlast, hquote⟩
  cases o with
  | slashes | hash => exact absurd rfl hkind
  | blockComment => exact marked h
  | docComment =>
      rcases h with rfl | ⟨-, h⟩
      · exact ⟨'/', rfl, by decide⟩
      · exact marked h
  | singleQuote => exact quoted '\'' (by decide) h
  | doubleQuote => exact quoted '"' (by decide) h
  | heredoc =>
      obtain ⟨_, _, _, _, _, hclosed⟩ := h
      obtain ⟨c, hc, hpart⟩ := hclosed.getLast?
      refine ⟨c, hc, ?_, ?_⟩ <;>
      · rintro rfl
        cases hpart

-- A question mark in an operator stands in front of another sign than that of the tag, unless the
-- operator ends with it.
theorem spelling_of_question : ∀ s ∈ Symbol.spellings, ∀ n, s.1.toList[n]? = some '?' →
    headIs (· ≠ '>') (s.1.toList.drop (n + 1)) = true ∨
      s = ("??", .coalesce) ∧ n = 1 ∨ s = ("?", .question) ∧ n = 0 := by
  have hspellings : ∀ s ∈ Symbol.spellings, ∀ n < s.1.toList.length, s.1.toList[n]? = some '?' →
      headIs (· ≠ '>') (s.1.toList.drop (n + 1)) = true ∨
        s = ("??", .coalesce) ∧ n = 1 ∨ s = ("?", .question) ∧ n = 0 := by decide
  intro s hs n hn
  exact hspellings s hs n (List.getElem?_eq_some_iff.1 hn).1 hn

-- The operator that takes the question mark of a tag has another one in front of it. Without that
-- one, it would make the tag together with what follows it.
theorem closeTag_in_symbol {s : String} {symbol : Symbol} {spelled : (s, symbol) ∈ Symbol.spellings}
    (h : (Pattern.symbol s symbol spelled).Longest (front ++ '?' :: text ++ more) (front ++ '?' :: text))
    (hmore : text ++ more = '>' :: rest) : symbol = .coalesce ∧ front = ['?'] := by
  have hs : front ++ '?' :: text = s.toList := h.mem
  have htext : s.toList.drop (front.length + 1) = text := by
    rw [← hs, ← List.drop_drop, List.drop_left]
    rfl
  rcases spelling_of_question _ spelled front.length (by simp [← hs]) with
    hnext | ⟨hspelled, hone⟩ | ⟨hspelled, hzero⟩
  · rw [htext] at hnext
    cases text with
    | nil => cases hnext
    | cons c text =>
        obtain ⟨rfl, -⟩ := List.cons.inj hmore
        cases hnext
  · obtain ⟨rfl, rfl⟩ := Prod.mk.inj hspelled
    obtain ⟨c, rfl⟩ := List.length_eq_one_iff.1 hone
    obtain ⟨rfl, -⟩ := List.cons.inj hs
    exact ⟨rfl, rfl⟩
  · obtain ⟨rfl, rfl⟩ := Prod.mk.inj hspelled
    obtain rfl := List.length_eq_zero_iff.1 hzero
    obtain rfl : text = [] := (List.cons.inj hs).2
    have htag : [] ++ ['?'] ++ ['>'] ∈ Pattern.closeTag.language := rfl
    cases h.ends htag hmore

-- A tag that begins within a text has its question mark there. The rest of it may stand behind.
theorem question_of_closeTag (h : text ++ more = front ++ ("?>".toList ++ rest))
    (hlt : front.length < text.length) :
    ∃ tail, text = front ++ '?' :: tail ∧ tail ++ more = '>' :: rest := by
  rcases List.append_eq_append_iff.1 h with ⟨part, rfl, -⟩ | ⟨part, rfl, hpart⟩
  · rw [List.length_append] at hlt
    omega
  · cases part with
    | nil => simp at hlt
    | cons c tail =>
        obtain ⟨rfl, htail⟩ := List.cons.inj hpart
        exact ⟨tail, rfl, htail.symm⟩

-- In a text that ends with neither character of the tag, the whole tag stands in front of the end.
theorem Sealed.goes_on {tail : List Char} (h : Sealed (front ++ '?' :: tail))
    (htail : tail ++ more = '>' :: rest) : front.length + 2 < (front ++ '?' :: tail).length := by
  obtain ⟨c, hc, hquestion, hgreater⟩ := h
  match tail, htail with
  | [], _ => exact absurd (by simpa using hc) hquestion.symm
  | [d], htail =>
      obtain ⟨rfl, -⟩ := List.cons.inj htail
      exact absurd (by simpa using hc) hgreater.symm
  | _ :: _ :: _, _ =>
      simp only [List.length_append, List.length_cons]
      omega

-- Where a tag that closes code may begin within a token: that token is the tag, or a literal or
-- a comment that goes on behind it, or an operator that takes its question mark.
theorem closeTag_in_code (h : code (text ++ more) = .token kind text.length)
    (hsplit : text ++ more = front ++ ("?>".toList ++ rest)) (hlt : front.length < text.length) :
    kind = .closeTag ∧ front = [] ∨
      (kind = .string ∨ kind = .blockComment ∨ kind = .docComment) ∧ front.length + 2 < text.length ∨
      kind = .symbol .coalesce ∧ front = ['?'] := by
  obtain ⟨tail, rfl, htail⟩ := question_of_closeTag hsplit hlt
  obtain ⟨p, opening, part, htext, hp, rfl, hread⟩ := longest_of_code h
  -- Where no opener is read, the token is the text of the pattern.
  have whole (hlength : opening.length = opening.length + part.length) :
      p.Longest (front ++ '?' :: tail ++ more) (front ++ '?' :: tail) := by
    obtain rfl : part = [] := List.length_eq_zero_iff.1 (by omega)
    rwa [htext, List.append_nil]
  have word (hword : p.isLiteral = true → ∃ k, p = .keyword k)
      (hlength : opening.length = opening.length + part.length) : False :=
    Pattern.lacks_of_word (.inr rfl) p hword _ (whole hlength).mem (by simp)
  cases p with
  | opener o =>
      have inside (hkind : o.kind ≠ .lineComment) :
          front.length + 2 < (front ++ '?' :: tail).length := by
        obtain rfl : opening = o.text.toList := hp.mem
        rw [String.length_toList] at hread
        refine Sealed.goes_on ?_ htail
        rw [htext]
        exact (sealed_of_ends (Opener.read_eq_token.1 hread).2 hkind).behind _
      cases o with
      | slashes | hash =>
          have hends := (lineComment_ends h).1 front.length hlt
          rw [hsplit, List.drop_left] at hends
          cases hends
      | blockComment => exact .inr (.inl ⟨.inr (.inl rfl), inside nofun⟩)
      | docComment => exact .inr (.inl ⟨.inr (.inr rfl), inside nofun⟩)
      | singleQuote | doubleQuote | heredoc => exact .inr (.inl ⟨.inl rfl, inside nofun⟩)
  | closeTag =>
      have hclose := text_of_closeTag h
      match front, hclose with
      | [], _ => exact .inl ⟨rfl, rfl⟩
      | [c], hclose => exact absurd (List.cons.inj (List.cons.inj hclose).2).1 (by decide)
      | _ :: _ :: _, hclose => simp at hclose
  | symbol s symbol spelled =>
      obtain ⟨rfl, hfront⟩ := closeTag_in_symbol (whole (Found.token.inj hread).2) htail
      exact .inr (.inr ⟨rfl, hfront⟩)
  | keyword k => exact (word (fun _ => ⟨k, rfl⟩) (Found.token.inj hread).2).elim
  | _ => exact (word nofun (Found.token.inj hread).2).elim

end Scan

end Census
