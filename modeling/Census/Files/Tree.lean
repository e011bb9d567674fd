import Census.Assoc
import Census.Files.Path

namespace Census

-- Files and directories below a root. The entries of a directory stand in no special order.
-- What is neither a file nor a directory is special, such as a pipe, a socket or a device.
inductive FileTree where
  | file (content : List UInt8)
  | special
  | directory (entries : List (FileName × FileTree))

namespace FileTree

-- Names of entries from the root downwards.
abbrev Location := List FileName

def empty : FileTree := .directory []

inductive Kind where
  | file | special | directory
deriving DecidableEq, Repr

def kind : FileTree → Kind
  | .file _ => .file
  | .special => .special
  | .directory _ => .directory

def child? (name : FileName) : FileTree → Option FileTree
  | .directory entries => Assoc.find? name entries
  | _ => none

def get? (tree : FileTree) (location : Location) : Option FileTree :=
  location.foldlM (fun tree name => tree.child? name) tree

def isDirectoryAt (tree : FileTree) (location : Location) : Bool :=
  (tree.get? location).map kind = some .directory

-- Puts something at a location and makes the directories on the way. What is no directory and
-- in the way stays as it is.
def put (new : FileTree) : Location → FileTree → FileTree
  | [], _ => new
  | name :: rest, .directory entries =>
      .directory (Assoc.alter name (fun old => put new rest (old.getD empty)) entries)
  | _ :: _, tree => tree

-- Takes away what stands at a location.
def removeAt : Location → FileTree → FileTree
  | [name], .directory entries => .directory (entries.filter fun entry => entry.1 ≠ name)
  | name :: next :: rest, .directory entries =>
      match Assoc.find? name entries with
      | none => .directory entries
      | some below => .directory (Assoc.insert name (removeAt (next :: rest) below) entries)
  | _, tree => tree

-- The location that a path from the root leads to. Every name on the way must be there, and
-- what something follows must be a directory. The root is above itself.
def resolve? (tree : FileTree) (path : Path) : Option Location :=
  (path.segments.foldlM (fun location segment => step location segment) []).bind fun location =>
    (tree.get? location).map fun _ => location
where
  step (location : Location) (segment : FileName) : Option Location :=
    if tree.isDirectoryAt location then
      if segment = [] || segment = [Path.dot] then some location
      else if segment = [Path.dot, Path.dot] then some location.dropLast
      else some (location ++ [segment])
    else none

-- Makes the directories that components lead through, one after the other, also those that a
-- later step up leaves again. The walk ends at what is no directory; else it has come to a
-- location.
def makeWay (tree : FileTree) (components : List Path.Component) : FileTree × Option Location :=
  components.foldl (fun (tree, location?) component =>
    match location? with
    | none => (tree, none)
    | some location => step tree location component) (tree, some [])
where
  step (tree : FileTree) (location : Location) : Path.Component → FileTree × Option Location
    | .name s =>
        let next := location ++ [s]
        match tree.get? next with
        | none => (put empty next tree, some next)
        | some (.directory _) => (tree, some next)
        | some _ => (tree, none)
    | .up => (tree, some location.dropLast)
    | _ => (tree, some location)

-- Makes a directory, unless something stands there.
def makeDirectory (tree : FileTree) (path : Path) : FileTree := (tree.makeWay path.components).1

-- Writes a file and makes the directories in front of it. Only files are written over, and
-- what is said to be a directory by the end of its path is no file.
def write (tree : FileTree) (path : Path) (content : List UInt8) : FileTree :=
  match tree.makeWay path.components.dropLast, path.segments.getLast?.bind Path.componentOf? with
  | (tree, some location), some (.name name) =>
      let place := location ++ [name]
      if (tree.get? place).all (·.kind = .file) then put (.file content) place tree else tree
  | (tree, _), _ => tree

-- Takes away what a path leads to. A directory goes by its name; a path that ends in dots
-- only empties it.
def remove (tree : FileTree) (path : Path) : FileTree :=
  match tree.resolve? path with
  | none => tree
  | some location => if path.endsInName then removeAt location tree else put empty location tree

def lookup? (tree : FileTree) (path : Path) : Option FileTree :=
  (tree.resolve? path).bind tree.get?

mutual

-- The locations of all files, depth first. The entries of a directory are visited in the
-- order of their names.
def files : FileTree → List Location
  | .file _ => [[]]
  | .special => []
  | .directory entries =>
      ((filesOfEntries entries).mergeSort fun a b => a.1 ≤ b.1).flatMap fun (name, below) =>
        below.map (name :: ·)

def filesOfEntries : List (FileName × FileTree) → List (FileName × List Location)
  | [] => []
  | (name, tree) :: rest => (name, tree.files) :: filesOfEntries rest

end

-- The paths of all files at or below what a path leads to, each as the given path and the
-- names that follow it.
def collect? (tree : FileTree) (path : Path) : Option (List Path) :=
  (tree.lookup? path).map fun below =>
    below.files.map fun location => location.foldl Path.join path

-- The content of a file that a path leads to.
def content? (tree : FileTree) (path : Path) : Option (List UInt8) :=
  match tree.lookup? path with
  | some (.file content) => some content
  | _ => none

-- The text of a file; what is not valid in it is replaced.
def load? (tree : FileTree) (path : Path) : Option String :=
  (tree.content? path).map Text.Utf8.decodeLossy

end FileTree

end Census
