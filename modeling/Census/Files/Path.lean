import Census.Text.Blank
import Census.Text.Utf8

namespace Census

-- The name of an entry in a directory, in bytes. It need not be a text.
abbrev FileName := List UInt8

-- A path as it was written, in bytes. Its meaning is in its components.
structure Path where
  bytes : List UInt8
deriving DecidableEq, Repr

namespace Path

def slash : UInt8 := 0x2f

def dot : UInt8 := 0x2e

def ofText (s : String) : Path := ⟨Text.Utf8.encode s⟩

-- The text of a path, if it is one.
def text? (path : Path) : Option String := Text.Utf8.decode? path.bytes

-- The path as messages show it. What is no text in it is replaced.
def shown (path : Path) : String := Text.Utf8.decodeLossy path.bytes

inductive Component where
  | root | here | up
  | name (s : FileName)
deriving DecidableEq, Repr

-- The parts of the path between its slashes.
def segments (path : Path) : List FileName := Text.splitAt slash path.bytes

def isAbsolute (path : Path) : Bool := path.bytes.head? = some slash

def componentOf? (segment : FileName) : Option Component :=
  if segment = [] || segment = [dot] then none
  else if segment = [dot, dot] then some .up
  else some (.name segment)

-- Repeated slashes mean one, and a dot means something only where a relative path begins
-- with it.
def components (path : Path) : List Component :=
  let lead : List Component :=
    if path.isAbsolute then [.root]
    else if path.segments.head? = some [dot] then [.here]
    else []
  lead ++ path.segments.filterMap componentOf?

-- Whether two paths mean the same without a look at any file.
def Same (p q : Path) : Prop := p.components = q.components

instance (p q : Path) : Decidable (p.Same q) := inferInstanceAs (Decidable (_ = _))

def join (path : Path) (name : FileName) : Path :=
  if path.bytes.isEmpty || path.bytes.getLast? = some slash then ⟨path.bytes ++ name⟩
  else ⟨path.bytes ++ slash :: name⟩

-- The absolute path of names from the root downwards.
def ofNames (names : List FileName) : Path := names.foldl join ⟨[slash]⟩

-- The name of the last component, if it has one.
def fileName? (path : Path) : Option FileName :=
  match path.components.getLast? with
  | some (.name s) => some s
  | _ => none

-- What follows the last dot of the last name, in lower case, if it is a text. A dot in front of
-- the whole name does not count.
def extension? (path : Path) : Option String :=
  path.fileName?.bind fun name =>
    let ending := (name.reverse.takeWhile (· ≠ dot)).reverse
    if name.length - ending.length ≤ 1 then none
    else (Text.Utf8.decode? ending).map Text.lowerCase

-- Whether the last components are those of another path.
def endsWith (path tail : Path) : Bool := tail.components.isSuffixOf path.components

-- Whether the path ends in a name, slashes aside. A dot in the end is no name, although it is
-- not a component.
def endsInName (path : Path) : Bool :=
  match (path.segments.filter (· ≠ [])).getLast?.bind componentOf? with
  | some (.name _) => true
  | _ => false

-- What is left of some segments behind the first `n` that mean something.
def dropSegments (n : Nat) : List FileName → List FileName
  | [] => []
  | segment :: rest =>
      if (componentOf? segment).isNone then dropSegments n rest
      else
        match n with
        | 0 => segment :: rest
        | n + 1 => dropSegments n rest

-- A path that begins with the components of another one, without them. What is left stays as
-- it was written.
def below? (path base : Path) : Option Path :=
  if base.components.isPrefixOf path.components then
    let n := (base.segments.filterMap componentOf?).length
    some ⟨[slash].intercalate (dropSegments n path.segments)⟩
  else none

end Path

end Census
