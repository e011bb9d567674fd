namespace Census

-- The reserved words of the scripts.
inductive Keyword where
  | kwAbstract | kwAnd | kwArray | kwAs | kwBreak | kwCase | kwCatch | kwClass | kwClone
  | kwConst | kwContinue | kwDefault | kwDo | kwEcho | kwElse | kwElseif | kwExtends | kwFalse
  | kwFinal | kwFinally | kwFor | kwForeach | kwFunction | kwGlobal | kwIf | kwImplements
  | kwInclude | kwIncludeOnce | kwInstanceof | kwInterface | kwNamespace | kwNew | kwNull | kwOr
  | kwPrint | kwPrivate | kwProtected | kwPublic | kwRequire | kwRequireOnce | kwReturn
  | kwStatic | kwSwitch | kwThrow | kwTrait | kwTrue | kwTry | kwUse | kwVar | kwWhile
deriving DecidableEq, Repr

namespace Keyword

-- Each keyword's spelling in lower case; scripts may write it in any casing.
def word : Keyword → String
  | .kwAbstract => "abstract"
  | .kwAnd => "and"
  | .kwArray => "array"
  | .kwAs => "as"
  | .kwBreak => "break"
  | .kwCase => "case"
  | .kwCatch => "catch"
  | .kwClass => "class"
  | .kwClone => "clone"
  | .kwConst => "const"
  | .kwContinue => "continue"
  | .kwDefault => "default"
  | .kwDo => "do"
  | .kwEcho => "echo"
  | .kwElse => "else"
  | .kwElseif => "elseif"
  | .kwExtends => "extends"
  | .kwFalse => "false"
  | .kwFinal => "final"
  | .kwFinally => "finally"
  | .kwFor => "for"
  | .kwForeach => "foreach"
  | .kwFunction => "function"
  | .kwGlobal => "global"
  | .kwIf => "if"
  | .kwImplements => "implements"
  | .kwInclude => "include"
  | .kwIncludeOnce => "include_once"
  | .kwInstanceof => "instanceof"
  | .kwInterface => "interface"
  | .kwNamespace => "namespace"
  | .kwNew => "new"
  | .kwNull => "null"
  | .kwOr => "or"
  | .kwPrint => "print"
  | .kwPrivate => "private"
  | .kwProtected => "protected"
  | .kwPublic => "public"
  | .kwRequire => "require"
  | .kwRequireOnce => "require_once"
  | .kwReturn => "return"
  | .kwStatic => "static"
  | .kwSwitch => "switch"
  | .kwThrow => "throw"
  | .kwTrait => "trait"
  | .kwTrue => "true"
  | .kwTry => "try"
  | .kwUse => "use"
  | .kwVar => "var"
  | .kwWhile => "while"

def all : List Keyword := [
  .kwAbstract, .kwAnd, .kwArray, .kwAs, .kwBreak, .kwCase, .kwCatch, .kwClass, .kwClone,
  .kwConst, .kwContinue, .kwDefault, .kwDo, .kwEcho, .kwElse, .kwElseif, .kwExtends, .kwFalse,
  .kwFinal, .kwFinally, .kwFor, .kwForeach, .kwFunction, .kwGlobal, .kwIf, .kwImplements,
  .kwInclude, .kwIncludeOnce, .kwInstanceof, .kwInterface, .kwNamespace, .kwNew, .kwNull, .kwOr,
  .kwPrint, .kwPrivate, .kwProtected, .kwPublic, .kwRequire, .kwRequireOnce, .kwReturn,
  .kwStatic, .kwSwitch, .kwThrow, .kwTrait, .kwTrue, .kwTry, .kwUse, .kwVar, .kwWhile]

theorem mem_all (k : Keyword) : k ∈ all := by cases k <;> decide

-- The keyword that a name spells, whatever its casing.
def ofName? (name : String) : Option Keyword :=
  all.find? fun k => k.word = String.ofList (name.toList.map Char.toLower)

end Keyword

-- Punctuation and operators.
inductive Symbol where
  | leftBrace | rightBrace | leftBracket | rightBracket | leftParen | rightParen | semicolon
  | comma | colon | doubleColon | backslash | arrow | fatArrow | ellipsis | atSign | assign
  | plusAssign | minusAssign | timesAssign | divideAssign | concatAssign | moduloAssign
  | coalesceAssign | question | coalesce | orElse | andAlso | pipe | caret | ampersand | equal
  | notEqual | identical | notIdentical | less | greater | lessEqual | greaterEqual | spaceship
  | shiftLeft | shiftRight | plus | minus | dot | star | slash | percent | power | bang | tilde
  | increment | decrement
deriving DecidableEq, Repr

namespace Symbol

def text : Symbol → String
  | .leftBrace => "\x7b"
  | .rightBrace => "\x7d"
  | .leftBracket => "["
  | .rightBracket => "]"
  | .leftParen => "("
  | .rightParen => ")"
  | .semicolon => ";"
  | .comma => ","
  | .colon => ":"
  | .doubleColon => "::"
  | .backslash => "\\"
  | .arrow => "->"
  | .fatArrow => "=>"
  | .ellipsis => "..."
  | .atSign => "@"
  | .assign => "="
  | .plusAssign => "+="
  | .minusAssign => "-="
  | .timesAssign => "*="
  | .divideAssign => "/="
  | .concatAssign => ".="
  | .moduloAssign => "%="
  | .coalesceAssign => "??="
  | .question => "?"
  | .coalesce => "??"
  | .orElse => "||"
  | .andAlso => "&&"
  | .pipe => "|"
  | .caret => "^"
  | .ampersand => "&"
  | .equal => "=="
  | .notEqual => "!="
  | .identical => "==="
  | .notIdentical => "!=="
  | .less => "<"
  | .greater => ">"
  | .lessEqual => "<="
  | .greaterEqual => ">="
  | .spaceship => "<=>"
  | .shiftLeft => "<<"
  | .shiftRight => ">>"
  | .plus => "+"
  | .minus => "-"
  | .dot => "."
  | .star => "*"
  | .slash => "/"
  | .percent => "%"
  | .power => "**"
  | .bang => "!"
  | .tilde => "~"
  | .increment => "++"
  | .decrement => "--"

-- Longer spellings stand before shorter ones, so the first that fits is the longest.
-- Inequality has two spellings.
def spellings : List (String × Symbol) := [
  ("...", .ellipsis), ("??=", .coalesceAssign), ("===", .identical), ("!==", .notIdentical),
  ("<=>", .spaceship), ("::", .doubleColon), ("->", .arrow), ("=>", .fatArrow),
  ("+=", .plusAssign), ("-=", .minusAssign), ("*=", .timesAssign), ("/=", .divideAssign),
  (".=", .concatAssign), ("%=", .moduloAssign), ("??", .coalesce), ("||", .orElse),
  ("&&", .andAlso), ("==", .equal), ("!=", .notEqual), ("<=", .lessEqual), (">=", .greaterEqual),
  ("<<", .shiftLeft), (">>", .shiftRight), ("**", .power), ("++", .increment),
  ("--", .decrement), ("<>", .notEqual), ("\x7b", .leftBrace), ("\x7d", .rightBrace),
  ("[", .leftBracket), ("]", .rightBracket), ("(", .leftParen), (")", .rightParen),
  (";", .semicolon), (",", .comma), (":", .colon), ("\\", .backslash), ("@", .atSign),
  ("=", .assign), ("?", .question), ("|", .pipe), ("^", .caret), ("&", .ampersand), ("<", .less),
  (">", .greater), ("+", .plus), ("-", .minus), (".", .dot), ("*", .star), ("/", .slash),
  ("%", .percent), ("!", .bang), ("~", .tilde)]

end Symbol

-- The lexical classes of a script. Markup is all text outside of code.
inductive TokenKind where
  | lineComment | blockComment | docComment | markup | openTag | closeTag
  | variableName | identifier | integer | float | string
  | symbol (s : Symbol)
  | keyword (k : Keyword)
deriving DecidableEq, Repr

namespace TokenKind

def isKeyword : TokenKind → Bool
  | .keyword _ => true
  | _ => false

-- Keywords may stand where the grammar asks for a part of a qualified name.
def isName (kind : TokenKind) : Bool := kind = .identifier || kind.isKeyword

def isLiteral : TokenKind → Bool
  | .integer | .float | .string => true
  | .keyword k => k = .kwTrue || k = .kwFalse || k = .kwNull
  | _ => false

def isAssignment : TokenKind → Bool
  | .symbol .assign | .symbol .plusAssign | .symbol .minusAssign | .symbol .timesAssign
  | .symbol .divideAssign | .symbol .concatAssign | .symbol .moduloAssign
  | .symbol .coalesceAssign => true
  | _ => false

-- Tokens that mean something to the grammar. Comments, markup and the tag that opens code
-- do not; the tag that closes code does, because it ends a statement.
def isSignificant : TokenKind → Bool
  | .lineComment | .blockComment | .docComment | .markup | .openTag => false
  | _ => true

end TokenKind

end Census
