import Census.Text.Blank

namespace Census.DocComment

open Text

-- A line of a doc comment without what decorates its beginning.
def content (line : List Char) : List Char :=
  trimStart ((dropRepeated "/**".toList (trimStart line)).dropWhile (· = '*'))

-- The value that a line gives to a tag: the first word behind the tag, without a comment end
-- that touches it. A tag is a whole word.
def value? (tag : List Char) (line : List Char) : Option (List Char) :=
  let line := content line
  let rest := line.drop tag.length
  if tag.isPrefixOf line && rest.head?.any isBlank then
    let word := dropRepeatedEnd "*/".toList (firstWord rest)
    if word.isEmpty then none else some word
  else none

-- The values of a tag, at most one for each line.
def values (tag : String) (doc : String) : List (List Char) :=
  (splitAt '\n' doc.toList).filterMap (value? tag.toList)

def throwsTag : String := "@throws"

def packageTag : String := "@package"

-- A name without its leading separators.
def bare (name : List Char) : String := String.ofList (name.dropWhile (· = '\\'))

-- The exceptions that a doc comment names; bars separate alternatives.
def throws (doc : String) : List String :=
  (((values throwsTag doc).flatMap (splitAt '|')).filter fun name => !name.isEmpty).map bare

-- The package that a doc comment names first.
def package? (doc : String) : Option String := (values packageTag doc).head?.map bare

end Census.DocComment
