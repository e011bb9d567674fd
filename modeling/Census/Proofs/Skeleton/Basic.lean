import Census.Proofs.Registry.Grouped
import Census.Script

namespace Census

-- A word that may name something: it is no keyword in any casing.
structure Identifier where
  text : String
  start : Scan.headIs Scan.isNameStart text.toList = true
  parts : text.toList.all Scan.isNamePart = true
  free : Keyword.ofName? text = none

-- Words with separators between them.
structure QualifiedName where
  head : Identifier
  tail : List Identifier := []

def QualifiedName.text (name : QualifiedName) : String :=
  "\\".intercalate ((name.head :: name.tail).map Identifier.text)

namespace Skeleton

-- The head of a function or a method, with the exceptions of its doc comment if it has one.
structure Signature where
  name : Identifier
  annotated : Option (List QualifiedName) := none

-- A function or a method of a class. Its body does nothing but throw.
structure Procedure extends Signature where
  thrown : List QualifiedName := []

inductive Item where
  | function (procedure : Procedure)
  | classType (name : Identifier) (methods : List Procedure)
  | interfaceType (name : Identifier) (methods : List Signature)

structure Section where
  scope : QualifiedName
  items : List Item

end Skeleton

-- What a script declares, without regard to how it is written: sections, each in its namespace.
structure Skeleton where
  sections : List Skeleton.Section

namespace Skeleton

section Tokens

-- Punctuation that is no beginning of a longer token.
inductive Mark where
  | leftBrace | rightBrace | leftParen | rightParen | semicolon | backslash
deriving DecidableEq

def Mark.symbol : Mark → Symbol
  | .leftBrace => .leftBrace
  | .rightBrace => .rightBrace
  | .leftParen => .leftParen
  | .rightParen => .rightParen
  | .semicolon => .semicolon
  | .backslash => .backslash

-- A significant token of a script. A doc comment that names exceptions may stand in front of a
-- keyword.
inductive Atom where
  | keyword (k : Keyword) (annotated : Option (List QualifiedName) := none)
  | identifier (name : Identifier)
  | mark (m : Mark)

namespace Atom

def kind : Atom → TokenKind
  | .keyword k _ => .keyword k
  | .identifier _ => .identifier
  | .mark m => .symbol m.symbol

def text : Atom → String
  | .keyword k _ => k.word
  | .identifier name => name.text
  | .mark m => m.symbol.text

def annotated : Atom → Option (List QualifiedName)
  | .keyword _ annotated => annotated
  | _ => none

-- Two words in a row need space between them.
def isWord : Atom → Bool
  | .mark _ => false
  | _ => true

end Atom

def nameAtoms (name : QualifiedName) : List Atom :=
  .identifier name.head :: name.tail.flatMap fun word => [.mark .backslash, .identifier word]

-- The statement that throws a new object of a class.
def throwAtoms (name : QualifiedName) : List Atom :=
  .keyword .kwThrow :: .keyword .kwNew ::
    (nameAtoms name ++ [.mark .leftParen, .mark .rightParen, .mark .semicolon])

def bodyAtoms (thrown : List QualifiedName) : List Atom :=
  .mark .leftBrace :: (thrown.flatMap throwAtoms ++ [.mark .rightBrace])

def Signature.headAtoms (s : Signature) : List Atom :=
  [.keyword .kwFunction s.annotated, .identifier s.name, .mark .leftParen, .mark .rightParen]

def Signature.atoms (s : Signature) : List Atom := s.headAtoms ++ [.mark .semicolon]

def Procedure.atoms (p : Procedure) : List Atom := p.headAtoms ++ bodyAtoms p.thrown

-- A class or an interface, by its keyword and the tokens of its members.
def typeAtoms (k : Keyword) (name : Identifier) (members : List Atom) : List Atom :=
  .keyword k :: .identifier name :: .mark .leftBrace :: (members ++ [.mark .rightBrace])

def Item.atoms : Item → List Atom
  | .function p => p.atoms
  | .classType name methods => typeAtoms .kwClass name (methods.flatMap Procedure.atoms)
  | .interfaceType name methods => typeAtoms .kwInterface name (methods.flatMap Signature.atoms)

def Section.atoms (part : Section) : List Atom :=
  .keyword .kwNamespace :: (nameAtoms part.scope ++ .mark .semicolon :: part.items.flatMap Item.atoms)

def atoms (skeleton : Skeleton) : List Atom := skeleton.sections.flatMap Section.atoms

end Tokens

section Text

-- The space around a token: in front of it and of its doc comment, in front of each line of the
-- doc comment but the first, and behind the doc comment.
structure Spacing where
  before : { cs : List Char // cs.all Scan.isSpace = true }
  margin : { cs : List Char // cs.all Scan.isIndent = true }
  behind : { cs : List Char // cs.all Scan.isSpace = true }

-- The space around each token, and in front of the end.
abbrev Layout := Nat → Spacing

-- The line of a doc comment that names an exception.
def throwsLine (margin : List Char) (name : QualifiedName) : List Char :=
  margin ++ "* @throws ".toList ++ name.text.toList

-- A doc comment with one line for each exception.
def docComment (margin : List Char) (annotated : List QualifiedName) : List Char :=
  "/**\n".toList ++ annotated.flatMap (fun name => throwsLine margin name ++ ['\n']) ++
    (margin ++ "*/".toList)

-- The doc comment of a token, if it has one, with the space behind it.
def docText (spacing : Spacing) (atom : Atom) : List Char :=
  atom.annotated.elim [] fun annotated =>
    docComment spacing.margin.1 annotated ++ spacing.behind.1

-- Tokens from number `i` on. One space more separates a word from a word in front of it.
def written (layout : Layout) (i : Nat) (behindWord : Bool) : List Atom → List Char
  | [] => (layout i).before.1
  | atom :: rest =>
      (if behindWord && atom.isWord then [' '] else []) ++ (layout i).before.1 ++
        docText (layout i) atom ++ atom.text.toList ++ written layout (i + 1) atom.isWord rest

def source (skeleton : Skeleton) (layout : Layout) : String :=
  String.ofList ("<?php".toList ++ written layout 0 true skeleton.atoms)

end Text

section Declarations

-- What is made of each item of a list and of the number of its first token, where the first item
-- begins with token `i`.
def numbered {α β : Type} (atoms : α → List Atom) (f : Nat → α → β) (i : Nat) : List α → List β
  | [] => []
  | a :: rest => f i a :: numbered atoms f (i + (atoms a).length) rest

def Signature.exceptions (s : Signature) : List QualifiedName := s.annotated.getD []

-- The annotated exceptions come before those that are thrown.
def Procedure.exceptions (p : Procedure) : List QualifiedName := p.toSignature.exceptions ++ p.thrown

namespace Item

def name : Item → Identifier
  | .function p => p.name
  | .classType name _ => name
  | .interfaceType name _ => name

def kind : Item → DeclarationKind
  | .function _ => .function
  | .classType .. => .classType
  | .interfaceType .. => .interfaceType

def exceptions : Item → List QualifiedName
  | .function p => p.exceptions
  | .classType _ methods => methods.flatMap Procedure.exceptions
  | .interfaceType _ methods => methods.flatMap Signature.exceptions

-- The declaration of an item whose first token has number `i`. Each exception counts once.
def declaration (spanOf : Nat → Span) (scope : QualifiedName) (i : Nat) (item : Item) :
    Declaration where
  name := item.name.text
  kind := item.kind
  scope := scope.text
  exceptions := (item.exceptions.map QualifiedName.text).eraseDups
  span := ⟨(spanOf i).start, (spanOf (i + (item.atoms.length - 1))).stop⟩

end Item

-- The declarations of a section, behind the head of its namespace.
def Section.declarations (spanOf : Nat → Span) (i : Nat) (part : Section) : List Declaration :=
  numbered Item.atoms (Item.declaration spanOf part.scope)
    (i + (nameAtoms part.scope).length + 2) part.items

-- All declarations in the order of the source, given where its tokens stand.
def declarations (skeleton : Skeleton) (spanOf : Nat → Span) : List Declaration :=
  (numbered Section.atoms (Section.declarations spanOf) 0 skeleton.sections).flatten

end Declarations

end Skeleton

end Census
