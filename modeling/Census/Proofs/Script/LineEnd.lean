import Census.Proofs.Registry.LineEnd
import Census.Proofs.Script.Schema
import Census.Proofs.Token.Returned

namespace Census

open Grammar Text

-- A significant token with its documentation, and what becomes of it when its source is written
-- with carriage returns.
structure Lexeme.Returned (l l' : Lexeme) : Prop where
  kind : l'.token.kind = l.token.kind
  text : l'.token.text = crlfText l.token.text
  span : l'.token.span = l.token.span
  doc : l'.doc = l.doc.map crlfText

theorem Lexeme.ofTokensFrom_returned {ts ts' : List Token}
    (h : List.Forall₂ Token.Returned ts ts') (doc : Option String) :
    List.Forall₂ Lexeme.Returned (ofTokensFrom doc ts) (ofTokensFrom (doc.map crlfText) ts') := by
  induction h generalizing doc with
  | nil => exact .nil
  | @cons t t' ts ts' ht hts ih =>
      rw [ofTokensFrom, ofTokensFrom, ht.kind]
      split
      · rename_i hsignificant
        have hmarkup : t.kind ≠ .markup := by
          intro hkind
          rw [hkind] at hsignificant
          cases hsignificant
        have hspan : t'.span = t.span := by
          rw [← show (⟨t'.span.start, t'.span.stop⟩ : Span) = t'.span from rfl, ht.start, ht.stop hmarkup]
        exact .cons ⟨ht.kind, ht.text, hspan, rfl⟩ (ih none)
      · split
        · rw [ht.text]
          exact ih (some t.text)
        · exact ih doc

def ParseError.returned : ParseError → ParseError
  | .unexpectedToken p found expected => .unexpectedToken p (crlfText found) expected
  | e => e

namespace Script

-- A script, and what becomes of it when its source is written with carriage returns.
structure Returned (a b : Script) : Prop where
  lexemes : List.Forall₂ Lexeme.Returned a.lexemes.toList b.lexemes.toList
  ending : b.ending = a.ending

theorem returned_ofSource {source : String} (h : '\r' ∉ source.toList) :
    (ofSource source).Returned (ofSource (crlfText source)) := by
  obtain ⟨htokens, hending⟩ := tokenize_crlf h
  exact ⟨Lexeme.ofTokensFrom_returned htokens none, hending⟩

namespace Returned

variable {a b : Script} (h : a.Returned b)

include h

theorem size : b.lexemes.size = a.lexemes.size := h.lexemes.length_eq.symm

theorem lookup (token : Nat) : a.lexemes[token]? = none ∧ b.lexemes[token]? = none ∨
    ∃ l l', a.lexemes[token]? = some l ∧ b.lexemes[token]? = some l' ∧ l.Returned l' := by
  rw [← Array.getElem?_toList, ← Array.getElem?_toList]
  by_cases hlt : token < a.lexemes.toList.length
  · have hlt' : token < b.lexemes.toList.length := h.lexemes.length_eq ▸ hlt
    exact .inr ⟨_, _, List.getElem?_eq_getElem hlt, List.getElem?_eq_getElem hlt',
      h.lexemes.get hlt hlt'⟩
  · have hge := Nat.le_of_not_lt hlt
    exact .inl ⟨List.getElem?_eq_none hge, List.getElem?_eq_none (h.lexemes.length_eq ▸ hge)⟩

theorem text (token : Nat) : b.text token = crlfText (a.text token) := by
  rcases h.lookup token with ⟨ha, hb⟩ | ⟨l, l', ha, hb, hl⟩
  · rw [Script.text, Script.text, ha, hb]
    rfl
  · rw [Script.text, Script.text, ha, hb]
    exact hl.text

theorem docOf (token : Nat) : b.docOf token = (a.docOf token).map crlfText := by
  rcases h.lookup token with ⟨ha, hb⟩ | ⟨l, l', ha, hb, hl⟩
  · rw [Script.docOf, Script.docOf, ha, hb]
    rfl
  · rw [Script.docOf, Script.docOf, ha, hb]
    exact hl.doc

theorem lastPosition : b.lastPosition = a.lastPosition := by
  rw [Script.lastPosition, Script.lastPosition, Array.back?_eq_getElem?, Array.back?_eq_getElem?, h.size]
  rcases h.lookup (a.lexemes.size - 1) with ⟨ha, hb⟩ | ⟨l, l', ha, hb, hl⟩
  · rw [ha, hb]
  · rw [ha, hb]
    exact congrArg Span.stop hl.span

theorem spanOf (token : Nat) : b.spanOf token = a.spanOf token := by
  rw [Script.spanOf, Script.spanOf, h.lastPosition]
  rcases h.lookup token with ⟨ha, hb⟩ | ⟨l, l', ha, hb, hl⟩
  · rw [ha, hb]
  · rw [ha, hb]
    exact hl.span

theorem terminals : b.terminals = a.terminals := by
  have hcasts : ∀ name ∈ castNames, Inline name.toList := by decide
  have hnames (s : String) : castNames.contains (crlfText s) = castNames.contains s := by
    rw [Bool.eq_iff_iff, List.contains_iff_mem, List.contains_iff_mem]
    exact ⟨fun hmem => (crlfText_eq_iff (hcasts _ hmem)).1 rfl ▸ hmem,
      fun hmem => (hcasts _ hmem).crlfText_eq.symm ▸ hmem⟩
  apply List.ext_getElem?
  intro token
  simp only [Script.terminals, List.getElem?_map, Array.getElem?_toList]
  rcases h.lookup token with ⟨ha, hb⟩ | ⟨l, l', ha, hb, hl⟩
  · rw [ha, hb]
  · rw [ha, hb]
    simp only [Option.map_some, namesCast, hl.kind, hl.text, lowerCase_crlfText, hnames]

theorem image (image : Image) : b.image image = crlfText (a.image image) := by
  cases image with
  | none => rfl
  | pieces tokens =>
      rw [Script.image, Script.image, crlfText_join, List.map_map]
      exact congrArg (fun text => String.join (List.map text _)) (funext h.text)
  | lowered token => rw [Script.image, Script.image, h.text, lowerCase_crlfText]

theorem content (outline : Outline) : b.content outline = (a.content outline).returned := by
  simp only [Script.content, Content.returned, h.spanOf, h.image]
  cases outline.doc with
  | none => rfl
  | some token => simp [h.docOf]

theorem shown (draft : Draft) : b.shown draft = (a.shown draft).map Content.returned := by
  rw [Script.shown, Script.shown, Tree.map_map]
  exact congrArg (Tree.map · draft) (funext h.content)

theorem fileSpan (drafts : List Draft) :
    b.fileSpan (drafts.map b.shown) = a.fileSpan (drafts.map a.shown) := by
  have hspan (draft : Draft) : (b.shown draft).label.span = (a.shown draft).label.span := by
    rw [h.shown, Tree.label_map]
    rfl
  simp only [Script.fileSpan, List.head?_map, List.getLast?_map, h.lastPosition]
  cases drafts.head? with
  | none => rfl
  | some first =>
      cases drafts.getLast? with
      | none => rfl
      | some last => simp only [Option.map_some, hspan]

theorem root (drafts : List Draft) : b.root drafts = (a.root drafts).map Label.returned := by
  have hfile : (⟨⟨.sourceFile, b.fileSpan (drafts.map b.shown), "", .empty, none⟩,
      drafts.map b.shown⟩ : Tree Content) =
      Tree.map Content.returned ⟨⟨.sourceFile, a.fileSpan (drafts.map a.shown), "", .empty, none⟩,
        drafts.map a.shown⟩ := by
    rw [Tree.map_mk, h.fileSpan, funext h.shown, List.map_map]
    rfl
  exact (congrArg (fun t => (Tree.number Label.mk 0 t).1) hfile).trans
    (Tree.map_number_map (k := Label.mk) (h := Content.returned) (fun _ _ => rfl) _ 0).symm

theorem endError : b.endError = a.endError.returned := by
  rw [Script.endError, Script.endError, h.ending, h.lastPosition]
  cases a.ending with
  | none => rfl
  | some e => cases e <;> rfl

theorem error (limit : Nat) (failure : Failure) :
    b.error limit failure = (a.error limit failure).returned := by
  cases failure with
  | atEnd => exact h.endError
  | unexpected token expected => rw [Script.error, h.spanOf, h.text]; rfl
  | tooDeep token => rw [Script.error, h.spanOf]; rfl

-- Scripts whose tokens say the same are parsed alike.
theorem parse (limit : Nat) :
    (∃ root, a.parse limit = .ok root ∧ b.parse limit = .ok (root.map Label.returned)) ∨
      ∃ e, a.parse limit = .error e ∧ b.parse limit = .error e.returned := by
  unfold Script.parse
  rw [h.terminals, h.ending]
  cases parseFile limit a.terminals with
  | error failure => exact .inr ⟨_, rfl, congrArg _ (h.error limit failure)⟩
  | ok drafts =>
      cases a.ending with
      | none => exact .inl ⟨_, rfl, congrArg _ (h.root drafts)⟩
      | some e => exact .inr ⟨_, rfl, by cases e <;> rfl⟩

end Returned

variable {source : String}

-- The words of a name stand on one line.
theorem inline_of_wordAt {k : Nat} (h : WordAt (ofSource source).terminals k) :
    Inline ((ofSource source).text k).toList := by
  have hname : Unbroken Scan.isNamePart := by decide
  obtain ⟨kind, hk, hword⟩ := h
  have hspells := text_spells hk
  cases kind with
  | identifier => exact hname.inline hspells
  | keyword word => exact hname.inline hspells
  | symbol s =>
      have hspellings : ∀ s ∈ Symbol.spellings, Inline s.1.toList := by decide
      exact hspellings ((ofSource source).text k, s) (text_symbol hk)
  | _ => cases hword

theorem inline_of_wordy {image : Image} {written : Bool}
    (h : image.Wordy (ofSource source).terminals written) :
    Inline ((ofSource source).image image).toList := by
  cases image with
  | none => exact nofun
  | pieces tokens =>
      intro c hc
      rw [toList_image_pieces, List.mem_flatMap] at hc
      obtain ⟨k, hk, hc⟩ := hc
      exact inline_of_wordAt (h.1 k hk) c hc
  | lowered token => exact absurd h id

-- Names stand on one line.
theorem inline_of_isNamed {limit : Nat} {root : Node} (h : (ofSource source).parse limit = .ok root) :
    ∀ node ∈ root.subtrees, (Node.kind node).isNamed = true → Inline (Node.image node).toList := by
  intro node hnode hnamed
  obtain ⟨image, himage, hwordy⟩ := wordy_of_parse h node hnode hnamed
  rw [himage]
  exact inline_of_wordy hwordy

end Script

-- Line ends decide nothing. Written with carriage returns, a source has the same tokens at the
-- same places, and it is parsed to the same tree, but for line breaks within texts, or refused for
-- the same reason; and what is declared in it is the same.
theorem parse_line_ends {source : String} (h : '\r' ∉ source.toList) (limit : Nat) :
    (List.Forall₂ Token.Returned (tokenize source).1 (tokenize (crlfText source)).1 ∧
      (tokenize (crlfText source)).2 = (tokenize source).2) ∧
    ((∃ root, parse source limit = .ok root ∧
        parse (crlfText source) limit = .ok (root.map Label.returned) ∧
        ∀ mode, survey mode (root.map Label.returned) = survey mode root) ∨
      ∃ e, parse source limit = .error e ∧ parse (crlfText source) limit = .error e.returned) := by
  refine ⟨tokenize_crlf h, ?_⟩
  rcases (Script.returned_ofSource h).parse limit with ⟨root, hroot, hroot'⟩ | herror
  · exact .inl ⟨root, hroot, hroot', survey_returned (Script.inline_of_isNamed hroot)⟩
  · exact .inr herror

-- A function whose annotation stands on a line of its own.
def linedFunction : String := "<?php\n/**\n * @throws E\n */\nfunction f() \x7b\n\x7d\n"

theorem parse_line_ends_function : '\r' ∉ linedFunction.toList ∧
    ∃ root, parse linedFunction 256 = .ok root ∧
      parse (crlfText linedFunction) 256 = .ok (root.map Label.returned) ∧
      ∀ mode, survey mode (root.map Label.returned) = survey mode root := by
  have hbare : '\r' ∉ linedFunction.toList := by decide +kernel
  have hparses : (parse linedFunction 256).toOption.isSome = true := by decide +kernel
  refine ⟨hbare, ?_⟩
  rcases (parse_line_ends hbare 256).2 with hroot | ⟨e, hrefused, -⟩
  · exact hroot
  · simp [hrefused, Except.toOption] at hparses

end Census
