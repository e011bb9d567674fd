import Census.Grammar.File
import Census.Text.Blank
import Census.Token.Lexeme

namespace Census

-- Why a script has no tree. A literal that is left open takes the rest of the script with it,
-- so then the tokens run out where it begins.
inductive ParseError where
  | endOfTokens (position : Position)
  | unexpectedToken (position : Position) (found : String) (expected : Grammar.Expected)
  | unexpectedCharacter (position : Position) (c : Char)
  | nestingLimit (position : Position) (limit : Nat)
deriving DecidableEq, Repr

namespace ParseError

def position : ParseError → Position
  | .endOfTokens p => p
  | .unexpectedToken p _ _ => p
  | .unexpectedCharacter p _ => p
  | .nestingLimit p _ => p

def message : ParseError → String
  | .endOfTokens p => s!"{p}: unexpected end of token stream"
  | .unexpectedToken p found expected =>
      s!"{p}: unexpected '{found}', expected {expected.describe}"
  | .unexpectedCharacter p c => s!"{p}: unexpected character {Text.quoted c}"
  | .nestingLimit p limit => s!"{p}: nesting limit of {limit} exceeded"

def ofLexError : LexError → ParseError
  | .unterminated p _ => .endOfTokens p
  | .unexpectedCharacter p c => .unexpectedCharacter p c

end ParseError

-- The significant tokens of a script by number, and the lexical error behind them, if any.
structure Script where
  lexemes : Array Lexeme
  ending : Option LexError

namespace Script

def ofSource (source : String) : Script :=
  let (tokens, ending) := tokenize source
  ⟨(Lexeme.ofTokens tokens).toArray, ending⟩

-- Names of types to which a value can be cast, in any casing.
def castNames : List String :=
  ["int", "integer", "bool", "boolean", "float", "double", "real", "string", "array", "object",
    "unset", "binary"]

def namesCast (token : Token) : Bool :=
  (token.kind = .identifier || token.kind = .keyword .kwArray) &&
    castNames.contains (Text.lowerCase token.text)

def terminals (script : Script) : List Grammar.Terminal :=
  script.lexemes.toList.map fun lexeme => ⟨lexeme.token.kind, namesCast lexeme.token⟩

def text (script : Script) (token : Nat) : String :=
  (script.lexemes[token]?).elim "" (·.token.text)

-- The end of the last significant token, or the beginning of a script that has none.
def lastPosition (script : Script) : Position :=
  script.lexemes.back?.elim .first (·.token.span.stop)

-- Where a token stands. Behind the last token, that is the end of the last token.
def spanOf (script : Script) (token : Nat) : Span :=
  (script.lexemes[token]?).elim ⟨script.lastPosition, script.lastPosition⟩ (·.token.span)

def docOf (script : Script) (token : Nat) : Option String :=
  (script.lexemes[token]?).bind (·.doc)

def image (script : Script) : Grammar.Image → String
  | .none => ""
  | .pieces tokens => String.join (tokens.map script.text)
  | .lowered token => Text.lowerCase (script.text token)

theorem image_token (script : Script) (token : Nat) :
    script.image (.tokens token token) = script.text token := by
  simp [Grammar.Image.tokens, image]

theorem image_pair (script : Script) (token : Nat) :
    script.image (.tokens token (token + 1)) = script.text token ++ script.text (token + 1) := by
  have h : token + 1 + 1 - token = 2 := by omega
  simp [Grammar.Image.tokens, image, h, List.range', String.join]

-- Looks up what an outline says in token numbers.
def content (script : Script) (outline : Grammar.Outline) : Content where
  kind := outline.kind
  span := ⟨(script.spanOf outline.first).start, (script.spanOf outline.last).stop⟩
  image := script.image outline.image
  modifiers := outline.modifiers
  doc := outline.doc.bind script.docOf

-- The span of a whole file: from its first node through its last one, or up to its last token
-- if it has no nodes.
def fileSpan (script : Script) (nodes : List (Tree Content)) : Span :=
  match nodes.head?, nodes.getLast? with
  | some first, some last => first.label.span.through last.label.span
  | _, _ => ⟨.first, script.lastPosition⟩

def root (script : Script) (drafts : List Grammar.Draft) : Node :=
  let nodes := drafts.map fun draft => draft.map script.content
  let label : Content :=
    { kind := .sourceFile, span := script.fileSpan nodes, image := "", modifiers := .empty
      doc := none }
  (Tree.number Label.mk 0 ⟨label, nodes⟩).1

-- The error behind all tokens: the lexical error, or the mere end of the script.
def endError (script : Script) : ParseError :=
  match script.ending with
  | some e => .ofLexError e
  | none => .endOfTokens script.lastPosition

def error (script : Script) (limit : Nat) : Grammar.Failure → ParseError
  | .atEnd => script.endError
  | .unexpected token expected =>
      .unexpectedToken (script.spanOf token).start (script.text token) expected
  | .tooDeep token => .nestingLimit (script.spanOf token).start limit

-- The tree of the script, if its tokens fit the grammar and no lexical error follows them.
def parse (script : Script) (limit : Nat) : Except ParseError Node :=
  match Grammar.parseFile limit script.terminals with
  | .error failure => .error (script.error limit failure)
  | .ok drafts =>
      match script.ending with
      | some e => .error (.ofLexError e)
      | none => .ok (script.root drafts)

end Script

-- How deep a script may nest unless something else is asked for.
def defaultNesting : Nat := 256

-- Reads a script whose constructs nest at most `limit` levels deep.
def parse (source : String) (limit : Nat) : Except ParseError Node :=
  (Script.ofSource source).parse limit

end Census
