import Census.Proofs.Script.Documentation
import Census.Proofs.Script.Schema

namespace Census

open Grammar

-- The tokens that are literals of a kind.
def LiteralKind.tokens : LiteralKind → List TokenKind
  | .integer => [.integer]
  | .float => [.float]
  | .string => [.string]
  | .boolean => [.keyword .kwTrue, .keyword .kwFalse]
  | .null => [.keyword .kwNull]

theorem LiteralKind.mem_tokens {kind : TokenKind} {sort : LiteralKind}
    (h : Parser.literalKind? kind = some sort) : kind ∈ sort.tokens := by
  unfold Parser.literalKind? at h
  split at h <;> cases h <;> decide

-- Whether a token lies in a span.
def Span.encloses (span : Span) (t : Token) : Bool :=
  span.contains t.span.start && span.contains t.span.stop

-- A node whose image is the text of all tokens that lie in it, where `tokens` are the significant
-- ones of its source. A variable and a literal are a single token, the kind of a literal is that of
-- its token, and no number has a sign.
structure Node.Verbatim (tokens : List Token) (node : Node) : Prop where
  nonempty : tokens.filter node.span.encloses ≠ []
  image : node.image = String.join ((tokens.filter node.span.encloses).map (·.text))
  variable_ : node.kind = .variableName → ∃ t, tokens.filter node.span.encloses = [t] ∧
    t.span = node.span ∧ t.kind = .variableName
  literal : ∀ sort, node.kind = .literal sort → ∃ t, tokens.filter node.span.encloses = [t] ∧
    t.span = node.span ∧ t.kind ∈ sort.tokens
  unsigned : node.kind = .literal .integer ∨ node.kind = .literal .float →
    ∀ c ∈ node.image.toList.head?, c ≠ '+' ∧ c ≠ '-'

-- What holds of the elements from one number to another, and of no others, selects these.
theorem filter_eq_take_drop {α : Type} {p : α → Bool} {l : List α} {first last : Nat}
    (h : ∀ (k : Nat) (hk : k < l.length), p l[k] = true ↔ first ≤ k ∧ k ≤ last)
    (hle : first ≤ last) : l.filter p = (l.drop first).take (last + 1 - first) := by
  have hfront : (l.take first).filter p = [] := by
    refine List.filter_eq_nil_iff.2 fun a ha => ?_
    obtain ⟨k, hk, rfl⟩ := List.mem_take_iff_getElem.1 ha
    rw [h]
    omega
  have hinner : ((l.drop first).take (last + 1 - first)).filter p =
      (l.drop first).take (last + 1 - first) := by
    refine List.filter_eq_self.2 fun a ha => ?_
    obtain ⟨k, hk, rfl⟩ := List.mem_take_iff_getElem.1 ha
    rw [List.getElem_drop, h]
    omega
  have hbehind : ((l.drop first).drop (last + 1 - first)).filter p = [] := by
    refine List.filter_eq_nil_iff.2 fun a ha => ?_
    rw [List.drop_drop] at ha
    obtain ⟨k, hk, rfl⟩ := List.mem_drop_iff_getElem.1 ha
    rw [h]
    omega
  calc l.filter p
      = (l.take first ++ ((l.drop first).take (last + 1 - first) ++
          (l.drop first).drop (last + 1 - first))).filter p := by
        rw [List.take_append_drop, List.take_append_drop]
    _ = (l.drop first).take (last + 1 - first) := by
        rw [List.filter_append, List.filter_append, hfront, hinner, hbehind, List.nil_append,
          List.append_nil]

namespace Script

variable {source : String} {first last k : Nat}

theorem encloses_iff (hle : first ≤ last) (hlast : last < (significantTokens source).length)
    (hk : k < (significantTokens source).length) :
    Span.encloses ⟨((ofSource source).spanOf first).start, ((ofSource source).spanOf last).stop⟩
      (significantTokens source)[k] = true ↔ first ≤ k ∧ k ≤ last := by
  have hfirst := Nat.lt_of_le_of_lt hle hlast
  have hself := start_le_stop_self hk
  simp only [Span.encloses, Span.contains, ← spanOf_eq hk, Bool.and_eq_true, decide_eq_true_eq]
  constructor
  · rintro ⟨⟨-, hstart⟩, hstop, -⟩
    refine ⟨Nat.le_of_not_lt fun hlt => ?_, Nat.le_of_not_lt fun hlt => ?_⟩
    · exact Position.lt_irrefl _ (Position.lt_of_lt_of_le (stop_lt_start hlt hfirst) hstop)
    · exact Position.lt_irrefl _ (Position.lt_of_lt_of_le (stop_lt_start hlt hk) hstart)
  · rintro ⟨hfront, hbehind⟩
    exact ⟨⟨start_le_start hfront hk, start_le_stop hbehind hlast⟩,
      start_le_stop hfront hk, stop_le_stop hbehind hlast⟩

-- The tokens that lie in the span from one token to another.
theorem filter_encloses (hle : first ≤ last) (hlast : last < (significantTokens source).length) :
    (significantTokens source).filter (Span.encloses
        ⟨((ofSource source).spanOf first).start, ((ofSource source).spanOf last).stop⟩) =
      ((significantTokens source).drop first).take (last + 1 - first) :=
  filter_eq_take_drop (fun _ hk => encloses_iff hle hlast hk) hle

theorem image_tokens (hlast : last < (significantTokens source).length) :
    (ofSource source).image (.tokens first last) =
      String.join ((((significantTokens source).drop first).take (last + 1 - first)).map (·.text)) := by
  rw [Image.tokens, image]
  refine congrArg String.join (List.ext_getElem (by simp; omega) fun k hk _ => ?_)
  simp only [List.length_map, List.length_range'] at hk
  simp only [List.getElem_map, List.getElem_range', List.getElem_take, List.getElem_drop, Nat.one_mul]
  exact text_ofSource (by omega)

-- A number begins with a digit or a point.
theorem unsigned_of_number {kind : TokenKind} (h : kindAt (ofSource source).terminals k = some kind)
    (hnumber : kind = .integer ∨ kind = .float) :
    ∀ c ∈ ((ofSource source).text k).toList.head?, c ≠ '+' ∧ c ≠ '-' := by
  have hhead : Scan.headIs (fun c => c.isDigit || c = '.') ((ofSource source).text k).toList = true := by
    have hspells := text_spells h
    rcases hnumber with rfl | rfl
    · exact hspells
    · exact hspells
  intro c hc
  rw [Scan.headIs, hc] at hhead
  constructor
  · rintro rfl
    cases hhead
  · rintro rfl
    cases hhead

section Shown

variable {node : Node} {o : Outline} (hcontent : node.label.content = (ofSource source).content o)
  (hle : o.first ≤ o.last) (hlast : o.last < (significantTokens source).length)
include hcontent hle hlast

theorem filter_span : (significantTokens source).filter node.span.encloses =
    ((significantTokens source).drop o.first).take (o.last + 1 - o.first) := by
  rw [Node.span, hcontent]
  exact filter_encloses hle hlast

-- A node of one token.
theorem filter_span_self {kind : TokenKind} (hself : o.last = o.first)
    (hkind : kindAt (ofSource source).terminals o.first = some kind) :
    ∃ t, (significantTokens source).filter node.span.encloses = [t] ∧ t.span = node.span ∧
      t.kind = kind := by
  have hfirst : o.first < (significantTokens source).length := hself ▸ hlast
  obtain ⟨t, ht, hsort⟩ := token_of_kindAt hkind
  obtain ⟨_, rfl⟩ := List.getElem?_eq_some_iff.1 ht
  refine ⟨_, ?_, ?_, hsort⟩
  · rw [filter_span hcontent hle hlast, hself, Nat.add_sub_cancel_left, List.drop_eq_getElem_cons hfirst]
    rfl
  · rw [Node.span, hcontent, content, hself, spanOf_eq hfirst]

theorem verbatim_of_content (h : o.Verbatim (ofSource source).terminals) :
    node.Verbatim (significantTokens source) := by
  have hnode : node.kind = o.kind := congrArg Content.kind hcontent
  have himage : node.image = (ofSource source).image (.tokens o.first o.last) := by
    rw [Node.image, hcontent, content, h.image]
  have hfilter := filter_span hcontent hle hlast
  refine ⟨fun hnil => ?_, ?_, fun hkind => ?_, fun sort hkind => ?_, fun hkind => ?_⟩
  · have hlength := congrArg List.length (hfilter.symm.trans hnil)
    simp only [List.length_take, List.length_drop, List.length_nil] at hlength
    omega
  · rw [himage, hfilter, image_tokens hlast]
  · obtain ⟨hself, hat⟩ := h.variable_ (hnode.symm.trans hkind)
    exact filter_span_self hcontent hle hlast hself hat
  · obtain ⟨hself, kind, hat, hsort⟩ := h.literal sort (hnode.symm.trans hkind)
    obtain ⟨t, htokens, hspan, rfl⟩ := filter_span_self hcontent hle hlast hself hat
    exact ⟨t, htokens, hspan, LiteralKind.mem_tokens hsort⟩
  · have number {sort : LiteralKind} (hkind : node.kind = .literal sort)
        (hsort : ∀ kind ∈ sort.tokens, kind = .integer ∨ kind = .float) :
        ∀ c ∈ node.image.toList.head?, c ≠ '+' ∧ c ≠ '-' := by
      obtain ⟨hself, kind, hat, hliteral⟩ := h.literal sort (hnode.symm.trans hkind)
      rw [himage, hself, image_token]
      exact unsigned_of_number hat (hsort kind (LiteralKind.mem_tokens hliteral))
    rcases hkind with hkind | hkind
    · exact number hkind (by decide)
    · exact number hkind (by decide)

end Shown

-- All nodes of a tree but the root show drafts.
theorem content_of_parse {limit : Nat} {root : Node} (h : (ofSource source).parse limit = .ok root) :
    ∀ node ∈ root.subtrees, Node.kind node = .sourceFile ∨
      ∃ o, node.label.content = (ofSource source).content o ∧
        (o.kind.isVerbatim = true → o.Verbatim (ofSource source).terminals) ∧
        o.first ≤ o.last ∧ o.last < (significantTokens source).length := by
  obtain ⟨drafts, hdrafts, rfl⟩ := parse_ok h
  intro node hnode
  have hmem := List.mem_map_of_mem (f := (·.label.content)) hnode
  rw [root_contents] at hmem
  rcases List.mem_cons.1 hmem with hroot | hdraft
  · exact .inl (congrArg Content.kind hroot)
  · obtain ⟨d, hd, hcontent⟩ := List.mem_map.1 hdraft
    obtain ⟨⟨_, hformed⟩, hbounds⟩ := formed_of_parseFile hdrafts d hd
    exact .inr ⟨d.label, hcontent.symm, hformed.own.1.text, hbounds⟩

end Script

-- Names, types, variables and literals are shown as they stand in the source: the image of each of
-- them is what its tokens say.
theorem parse_verbatim {source : String} {limit : Nat} {root : Node}
    (h : parse source limit = .ok root) : ∀ node ∈ root.subtrees,
      (Node.kind node).isVerbatim = true → Node.Verbatim (significantTokens source) node := by
  intro node hnode hkind
  rcases Script.content_of_parse h node hnode with hroot | ⟨o, hcontent, hverbatim, hle, hlast⟩
  · rw [hroot] at hkind
    cases hkind
  · rw [Node.kind, hcontent] at hkind
    exact Script.verbatim_of_content hcontent hle hlast (hverbatim hkind)

-- A type whose first name goes on behind a comment, and a number behind a sign.
theorem parse_verbatim_parameter : ∃ root,
    parse "<?php function f(?\\A /* x */ \\B | null $x = -1) \x7b\x7d" 256 = .ok root ∧
      (∃ node ∈ root.subtrees, Node.image node = "?\\A\\B|null" ∧ Node.Verbatim
        (significantTokens "<?php function f(?\\A /* x */ \\B | null $x = -1) \x7b\x7d") node) ∧
      ∃ node ∈ root.subtrees, Node.image node = "1" ∧ Node.Verbatim
        (significantTokens "<?php function f(?\\A /* x */ \\B | null $x = -1) \x7b\x7d") node := by
  have himages : (parse "<?php function f(?\\A /* x */ \\B | null $x = -1) \x7b\x7d" 256).toOption.map
      (fun root => (root.subtrees.filter fun node : Node => node.kind.isVerbatim).map Node.image) =
        some ["?\\A\\B|null", "1"] := by decide +kernel
  cases h : parse "<?php function f(?\\A /* x */ \\B | null $x = -1) \x7b\x7d" 256 with
  | error e => simp [h, Except.toOption] at himages
  | ok root =>
      rw [h] at himages
      have hall := Option.some.inj himages
      have verbatim {image : String} (hmem : image ∈ ["?\\A\\B|null", "1"]) :
          ∃ node ∈ root.subtrees, Node.image node = image ∧ Node.Verbatim
            (significantTokens "<?php function f(?\\A /* x */ \\B | null $x = -1) \x7b\x7d") node := by
        obtain ⟨node, hnode, himage⟩ := List.mem_map.1 (hall ▸ hmem)
        obtain ⟨hnode, hkind⟩ := List.mem_filter.1 hnode
        exact ⟨node, hnode, himage, parse_verbatim h node hnode hkind⟩
      exact ⟨root, rfl, verbatim (.head _), verbatim (.tail _ (.head _))⟩

end Census
