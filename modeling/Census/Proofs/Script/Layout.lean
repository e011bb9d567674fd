import Census.Proofs.Grammar.Failure
import Census.Proofs.Registry.Unplaced
import Census.Proofs.Script.Requests
import Census.Proofs.Script.Span

namespace Census

open Grammar

-- What a significant token says, wherever it stands.
structure Meaning where
  kind : TokenKind
  text : String
  doc : Option String
deriving DecidableEq, Repr

namespace Meaning

def terminal (m : Meaning) : Terminal :=
  ⟨m.kind, Script.namesCast { kind := m.kind, text := m.text, start := 0, stop := 0, span := default }⟩

end Meaning

def Lexeme.meaning (lexeme : Lexeme) : Meaning := ⟨lexeme.token.kind, lexeme.token.text, lexeme.doc⟩

def ParseError.unplaced : ParseError → ParseError
  | .endOfTokens _ => .endOfTokens .first
  | .unexpectedToken _ found expected => .unexpectedToken .first found expected
  | .unexpectedCharacter _ c => .unexpectedCharacter .first c
  | .nestingLimit _ limit => .nestingLimit .first limit

-- An answer of a token stream without the positions in it.
def Reply.unplaced : Reply → Except ParseError (Option Meaning)
  | .ok seen => .ok (seen.map Lexeme.meaning)
  | .error e => .error e.unplaced

namespace Script

def meanings (script : Script) : List Meaning := script.lexemes.toList.map Lexeme.meaning

section Looking

variable (script : Script)

theorem meanings_getElem? (token : Nat) :
    script.meanings[token]? = (script.lexemes[token]?).map Lexeme.meaning := by
  rw [meanings, List.getElem?_map, Array.getElem?_toList]

theorem terminals_eq : script.terminals = script.meanings.map Meaning.terminal := by
  rw [terminals, meanings, List.map_map]
  rfl

theorem text_eq (token : Nat) : script.text token = (script.meanings[token]?).elim "" Meaning.text := by
  rw [text, meanings_getElem?]
  cases script.lexemes[token]? <;> rfl

theorem docOf_eq (token : Nat) : script.docOf token = script.meanings[token]?.bind Meaning.doc := by
  rw [docOf, meanings_getElem?]
  cases script.lexemes[token]? <;> rfl

end Looking

-- Two scripts whose tokens say the same.
section Alike

variable {a b : Script} (h : a.meanings = b.meanings)
include h

theorem text_of_meanings : a.text = b.text := by
  funext token
  rw [text_eq, text_eq, h]

theorem docOf_of_meanings : a.docOf = b.docOf := by
  funext token
  rw [docOf_eq, docOf_eq, h]

theorem image_of_meanings (image : Image) : a.image image = b.image image := by
  cases image with
  | none => rfl
  | pieces tokens => simp only [Script.image, text_of_meanings h]
  | lowered token => simp only [Script.image, text_of_meanings h]

-- What an outline says depends on where tokens stand in its span only.
theorem content_of_meanings (outline : Outline) :
    (a.content outline).unplaced = (b.content outline).unplaced := by
  simp only [content, Content.unplaced, image_of_meanings h, docOf_of_meanings h]

theorem shown_of_meanings (draft : Draft) :
    (a.shown draft).map Content.unplaced = (b.shown draft).map Content.unplaced := by
  simp only [shown, Tree.map_map, content_of_meanings h]

theorem root_of_meanings (drafts : List Draft) : (a.root drafts).unplaced = (b.root drafts).unplaced := by
  have hroot (script : Script) : (script.root drafts).unplaced = (Tree.number Label.mk 0
      ⟨⟨.sourceFile, default, "", .empty, none⟩,
        (drafts.map script.shown).map (Tree.map Content.unplaced)⟩).1 :=
    (Tree.map_number_map (k := Label.mk) (h := Content.unplaced) (fun _ _ => rfl) _ 0).trans
      (congrArg (fun t => (Tree.number Label.mk 0 t).1) (Tree.map_mk ..))
  simp only [hroot, List.map_map, Function.comp_def, shown_of_meanings h]

theorem parseFile_of_meanings (limit : Nat) :
    parseFile limit a.terminals = parseFile limit b.terminals := by
  rw [terminals_eq, terminals_eq, h]

variable (ha : a.ending = none) (hb : b.ending = none)
include ha hb

omit h in
theorem endError_of_ending : a.endError.unplaced = b.endError.unplaced := by
  rw [endError, endError, ha, hb]
  rfl

theorem error_of_meanings (limit : Nat) (failure : Failure) :
    (a.error limit failure).unplaced = (b.error limit failure).unplaced := by
  cases failure with
  | atEnd => exact endError_of_ending ha hb
  | unexpected token expected =>
      simp only [error, ParseError.unplaced, text_of_meanings h]
  | tooDeep token => rfl

theorem answer_of_meanings (taken : Nat) (request : Request) :
    (a.answer taken request).1.unplaced = (b.answer taken request).1.unplaced ∧
      (a.answer taken request).2 = (b.answer taken request).2 := by
  have hseen (token : Nat) : (a.lexemes.toList[token]?).map Lexeme.meaning =
      (b.lexemes.toList[token]?).map Lexeme.meaning := by
    rw [← List.getElem?_map, ← List.getElem?_map]
    exact congrArg (·[token]?) h
  cases request with
  | look n => exact ⟨congrArg Except.ok (hseen (taken + n)), rfl⟩
  | take =>
      have hnext := hseen taken
      simp only [answer]
      cases hat : a.lexemes.toList[taken]? with
      | none =>
          rw [hat, Option.map_none, eq_comm, Option.map_eq_none_iff] at hnext
          rw [hnext]
          exact ⟨congrArg Except.error (endError_of_ending ha hb), rfl⟩
      | some lexeme =>
          rw [hat, Option.map_some, eq_comm, Option.map_eq_some_iff] at hnext
          obtain ⟨lexeme', hat', hmeaning⟩ := hnext
          rw [hat']
          exact ⟨congrArg (fun m => Except.ok (some m)) hmeaning.symm, rfl⟩

theorem answers_of_meanings (taken : Nat) (requests : List Request) :
    (a.answers taken requests).map Reply.unplaced =
      (b.answers taken requests).map Reply.unplaced := by
  induction requests generalizing taken with
  | nil => rfl
  | cons request requests ih =>
      obtain ⟨hanswer, htaken⟩ := answer_of_meanings h ha hb taken request
      rw [answers, answers, List.map_cons, List.map_cons, hanswer, htaken, ih]

end Alike

theorem parse_of_drafts {script : Script} (hending : script.ending = none) {limit : Nat}
    {drafts : List Draft} (h : parseFile limit script.terminals = .ok drafts) :
    script.parse limit = .ok (script.root drafts) := by
  simp only [parse, h, hending]

-- An error without a lexical cause stands where parsing stopped.
theorem position_error {script : Script} (hending : script.ending = none) (limit : Nat)
    (failure : Failure) : (script.error limit failure).position =
      (script.spanOf (failure.index script.lexemes.size)).start := by
  cases failure with
  | atEnd =>
      have hbehind : script.lexemes[script.lexemes.size]? = none := by simp
      rw [error, endError, hending, Failure.index, spanOf, hbehind]
      rfl
  | unexpected token expected => rfl
  | tooDeep token => rfl

end Script

-- What the significant tokens of a source say.
def meanings (source : String) : List Meaning :=
  (Lexeme.ofTokens (tokenize source).1).map Lexeme.meaning

-- Two sources that can be read to their ends and differ in nothing but layout.
structure SameMeaning (source source' : String) : Prop where
  whole : (tokenize source).2 = none
  whole' : (tokenize source').2 = none
  tokens : meanings source = meanings source'

-- A source that is refused when `index` of its significant tokens are behind the parser: at the
-- next one, or at the end of the last one.
structure RefusedAt (source : String) (limit index : Nat) (e : ParseError) : Prop where
  refused : parse source limit = .error e
  grammar : ∃ failure, parseFile limit (Script.ofSource source).terminals = .error failure ∧
    failure.index (significantTokens source).length = index
  within : index ≤ (significantTokens source).length
  place : e.position = ((Script.ofSource source).spanOf index).start

namespace Script

theorem refusedAt {source : String} (hwhole : (tokenize source).2 = none) {limit : Nat}
    {failure : Failure} (h : parseFile limit (ofSource source).terminals = .error failure) :
    RefusedAt source limit (failure.index (significantTokens source).length)
      ((ofSource source).error limit failure) := by
  have hsize : (ofSource source).lexemes.size = (significantTokens source).length := by
    rw [← lexemes_ofSource, List.length_map, Array.length_toList]
  have hbelow := parseFile_below h
  rw [terminals_length] at hbelow
  refine ⟨?_, ⟨failure, h, rfl⟩, hbelow.index_le, ?_⟩
  · simp only [Census.parse, parse, h]
  · rw [position_error hwhole, hsize]

end Script

-- Layout decides nothing. Whatever a parser asks of the tokens, it is answered alike; the trees
-- and what is declared in them differ in spans at most; and if one source is refused, so is the
-- other, for the same reason and at the same token.
theorem parse_layout {source source' : String} (h : SameMeaning source source') (limit : Nat) :
    (∀ requests, ((Stream.ofSource source).answers requests).map Reply.unplaced =
        ((Stream.ofSource source').answers requests).map Reply.unplaced) ∧
      ((∃ root root', parse source limit = .ok root ∧ parse source' limit = .ok root' ∧
          root.unplaced = root'.unplaced ∧
          ∀ mode, (survey mode root).unplaced = (survey mode root').unplaced) ∨
        ∃ index e e', RefusedAt source limit index e ∧ RefusedAt source' limit index e' ∧
          e.unplaced = e'.unplaced) := by
  have hm : (Script.ofSource source).meanings = (Script.ofSource source').meanings := h.tokens
  refine ⟨fun requests => ?_, ?_⟩
  · rw [Stream.answers_ofSource, Stream.answers_ofSource]
    exact Script.answers_of_meanings hm h.whole h.whole' 0 requests
  · have hcount : (significantTokens source).length = (significantTokens source').length := by
      rw [← Script.terminals_length, ← Script.terminals_length, Script.terminals_eq, hm,
        Script.terminals_eq]
    have hfile := Script.parseFile_of_meanings hm limit
    cases hdrafts : parseFile limit (Script.ofSource source).terminals with
    | error failure =>
        have hdrafts' := hfile.symm.trans hdrafts
        refine .inr ⟨_, _, _, Script.refusedAt h.whole hdrafts, ?_,
          Script.error_of_meanings hm h.whole h.whole' limit failure⟩
        rw [hcount]
        exact Script.refusedAt h.whole' hdrafts'
    | ok drafts =>
        have hroot := Script.root_of_meanings hm drafts
        refine .inl ⟨_, _, Script.parse_of_drafts h.whole hdrafts,
          Script.parse_of_drafts h.whole' (hfile.symm.trans hdrafts), hroot, fun mode => ?_⟩
        rw [← survey_unplaced, ← survey_unplaced, hroot]

-- One function twice: packed, and with markup, comments and line ends around its tokens.
def packedFunction : String := "<?php /** @throws E */ function f($x)\x7breturn $x;\x7d"

def spacedFunction : String :=
  "text\n<?php\n/** @throws E */ // note\nfunction f ( $x )\r\n\x7b return $x; \x7d # end"

theorem parse_layout_function : SameMeaning packedFunction spacedFunction ∧
    ∃ root root', parse packedFunction 256 = .ok root ∧ parse spacedFunction 256 = .ok root' ∧
      root.unplaced = root'.unplaced ∧
      ∀ mode, (survey mode root).unplaced = (survey mode root').unplaced := by
  have hsame : SameMeaning packedFunction spacedFunction :=
    ⟨by decide +kernel, by decide +kernel, by decide +kernel⟩
  have hparses : (parse packedFunction 256).toOption.isSome = true := by decide +kernel
  refine ⟨hsame, ?_⟩
  rcases (parse_layout hsame 256).2 with hboth | ⟨_, _, _, hrefused, -⟩
  · exact hboth
  · simp [hrefused.refused, Except.toOption] at hparses

end Census
