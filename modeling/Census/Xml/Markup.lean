import Census.Text.Search

namespace Census.Xml

open Text

-- Why a text cannot be read as XML.
inductive Fault where
  | openMarkup | unknownMarkup | mismatchedTag | badReference
deriving DecidableEq, Repr

-- What a piece of markup says. The name of a tag is what stands in front of the first space.
inductive Markup where
  | startTag (name : List Char)
  | emptyTag
  | endTag (name : List Char)
  | cdata (text : List Char)
  | other
deriving DecidableEq, Repr

def isSpace (c : Char) : Bool := c = ' ' || c = '\t' || c = '\r' || c = '\n'

def trimEnd (cs : List Char) : List Char := (cs.reverse.dropWhile isSpace).reverse

def startsWith (s : String) (cs : List Char) : Bool := s.toList.isPrefixOf cs

-- The length of a tag in front of its closing bracket. Brackets between quotes do not close.
def tagLength? (quote : Option Char) : List Char → Option Nat
  | [] => none
  | c :: rest =>
      match quote with
      | some q => (tagLength? (if c = q then none else some q) rest).map (· + 1)
      | none =>
          if c = '>' then some 0
          else (tagLength? (if c = '"' || c = '\'' then some c else none) rest).map (· + 1)

-- The length of a document type in front of its closing bracket. Brackets inside of it come
-- in pairs.
def doctypeLength? (depth : Nat) : List Char → Option Nat
  | [] => none
  | c :: rest =>
      if c = '<' then (doctypeLength? (depth + 1) rest).map (· + 1)
      else if c = '>' then
        match depth with
        | 0 => some 0
        | depth + 1 => (doctypeLength? depth rest).map (· + 1)
      else (doctypeLength? depth rest).map (· + 1)

def startTag (content : List Char) : Markup :=
  if content.getLast? = some '/' then .emptyTag
  else .startTag (content.takeWhile fun c => !isSpace c)

-- Only space behind a name does not belong to it.
def endTag (content : List Char) : Markup :=
  .endTag (if content.all isSpace then content else trimEnd content)

-- A tag and the length of its markup.
def tag (make : List Char → Markup) (cs : List Char) : Except Fault (Markup × Nat) :=
  match tagLength? none cs with
  | some n => .ok (make (cs.take n), n + 1)
  | none => .error .openMarkup

-- A declaration or a processing instruction. It is not over with the question mark that
-- opens it.
def instruction (cs : List Char) : Except Fault (Markup × Nat) :=
  match seek (startsWith "?>") cs with
  | some 0 => .error .openMarkup
  | some n => .ok (.other, n + 2)
  | none => .error .openMarkup

-- A comment; its end does not overlap its beginning.
def comment (cs : List Char) : Except Fault (Markup × Nat) :=
  if startsWith "!--" cs then
    match seek (startsWith "-->") (cs.drop 3) with
    | some n => .ok (.other, 3 + n + 3)
    | none => .error .openMarkup
  else .error .unknownMarkup

def cdata (cs : List Char) : Except Fault (Markup × Nat) :=
  if startsWith "![CDATA[" cs then
    match seek (startsWith "]]>") (cs.drop 8) with
    | some n => .ok (.cdata ((cs.drop 8).take n), 8 + n + 3)
    | none => .error .openMarkup
  else .error .unknownMarkup

-- A document type needs a name.
def doctype (cs : List Char) : Except Fault (Markup × Nat) :=
  if (cs.take 8).map Char.toLower = "!doctype".toList then
    match doctypeLength? 0 cs with
    | some n =>
        if ((cs.take n).drop 8).all isSpace then .error .unknownMarkup else .ok (.other, n + 1)
    | none => .error .openMarkup
  else .error .unknownMarkup

-- The markup that begins with a bracket in front of `cs`, and its length behind that bracket.
def markup (cs : List Char) : Except Fault (Markup × Nat) :=
  if cs.isEmpty then .error .openMarkup
  else if startsWith "![" cs then cdata cs
  else if startsWith "!-" cs then comment cs
  else if startsWith "!" cs then doctype cs
  else if startsWith "?" cs then instruction cs
  else if startsWith "/" cs then tag (fun content => endTag content.tail) cs
  else tag startTag cs

end Census.Xml
