import Census.Files.Path
import Census.Text.Search

namespace Census

-- A condition on the paths of files: one of the usual two, or any other one.
inductive Filter where
  | extensions (accepted : List String)
  | excluding (fragments : List String)
  | satisfying (test : Path → Bool)

namespace Filter

-- Extensions may be given with their dot and in any casing.
def ofExtensions (values : List String) : Filter :=
  .extensions (values.map fun s => Text.lowerCase (String.ofList (s.toList.dropWhile (· = '.'))))

-- The usual extensions of scripts.
def scripts : Filter := ofExtensions ["php", "php3", "php4", "php5", "phtml", "inc"]

-- Backslashes separate names like slashes do.
def slashed (cs : List Char) : List Char := cs.map fun c => if c = '\\' then '/' else c

def ofFragments (values : List String) : Filter :=
  .excluding (values.map fun s => String.ofList (slashed s.toList))

def notEndingWith (tail : Path) : Filter := .satisfying fun path => !path.endsWith tail

-- Whether a text stands somewhere in another one.
def contains (part cs : List Char) : Bool :=
  part.isEmpty || (Text.seek part.isPrefixOf cs).isSome

def accepts (path : Path) : Filter → Bool
  | .extensions accepted => path.extension?.any accepted.contains
  | .excluding fragments =>
      !fragments.any fun fragment => contains fragment.toList (slashed path.shown.toList)
  | .satisfying test => test path

end Filter

-- A path passes when every filter accepts it.
structure Filters where
  all : List Filter := []

namespace Filters

def push (filters : Filters) (f : Filter) : Filters := ⟨filters.all ++ [f]⟩

def accepts (filters : Filters) (path : Path) : Bool := filters.all.all (Filter.accepts path)

def summary (filters : Filters) : String :=
  s!"CompositeFilter \x7b filters: {filters.all.length} \x7d"

end Filters

end Census
