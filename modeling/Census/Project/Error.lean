import Census.Files.Path
import Census.Script

namespace Census

-- What a registered path should lead to.
inductive InputKind where
  | directory | file
deriving DecidableEq, Repr

def InputKind.name : InputKind → String
  | .directory => "directory"
  | .file => "file"

-- The questions that only an analyzed project answers.
inductive Query where
  | countClasses | countInterfaces | countFunctions | countPackages | getPackage | getPackages
deriving DecidableEq, Repr

def Query.name : Query → String
  | .countClasses => "count_classes"
  | .countInterfaces => "count_interfaces"
  | .countFunctions => "count_functions"
  | .countPackages => "count_packages"
  | .getPackage => "get_package"
  | .getPackages => "get_packages"

-- Why a project refuses an input or an answer.
inductive ProjectError where
  | invalidInput (path : Path) (kind : InputKind)
  | noInput
  | prematureQuery (query : Query)
  | unknownPackage (name : String)
  | unparsable (path : Path) (cause : ParseError)
  | unreadable (path : Path)
  | workersNotStarted (cause : String)
deriving DecidableEq, Repr

namespace ProjectError

def message : ProjectError → String
  | .invalidInput path kind => s!"Invalid {kind.name} '{path.shown}' added."
  | .noInput => "No source directory and file set."
  | .prematureQuery query => s!"{query.name}() doesn't work before the source was analyzed."
  | .unknownPackage name => s!"Unknown package \"{name}\"."
  | .unparsable path cause => s!"{path.shown}:{cause.message}"
  | .unreadable path => s!"cannot read '{path.shown}'"
  | .workersNotStarted cause => s!"cannot start parser threads: {cause}"

-- The file that the error is about, if there is one.
def path? : ProjectError → Option Path
  | .invalidInput path _ => some path
  | .unparsable path _ => some path
  | .unreadable path => some path
  | _ => none

-- The same error with its path shown in another way.
def mapPath (f : Path → Path) : ProjectError → ProjectError
  | .invalidInput path kind => .invalidInput (f path) kind
  | .unparsable path cause => .unparsable (f path) cause
  | .unreadable path => .unreadable (f path)
  | e => e

end ProjectError

end Census
