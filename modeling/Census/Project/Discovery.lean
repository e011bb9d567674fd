import Census.Project.Basic
import Census.Project.Error

namespace Census

namespace FileTree

-- The locations of all files at or below a location.
def walk (tree : FileTree) (location : Location) : Except ProjectError (List Location) :=
  match tree.get? location with
  | some below => .ok (below.files.map (location ++ ·))
  | none => .error (.unreadable (.ofNames location))

-- The location of an input, which must be of the right kind. A path that leads nowhere is
-- reported as it was given.
def input (tree : FileTree) (kind : InputKind) (path : Path) : Except ProjectError Location :=
  match tree.resolve? path with
  | none => .error (.invalidInput path kind)
  | some location =>
      match kind, tree.get? location with
      | .directory, some (.directory _) => .ok location
      | .file, some (.file _) => .ok location
      | _, _ => .error (.invalidInput (.ofNames location) kind)

-- The text of a file.
def load (tree : FileTree) (location : Location) : Except ProjectError String :=
  match tree.get? location with
  | some (.file content) => .ok (Text.Utf8.decodeLossy content)
  | _ => .error (.unreadable (.ofNames location))

end FileTree

namespace Project

def addInput (project : Project) (kind : InputKind) (location : FileTree.Location) : Project :=
  match kind with
  | .directory => { project with directories := project.directories ++ [location] }
  | .file => { project with files := project.files ++ [location] }

-- The files to analyze: those below the directories and then the single files, each once, as
-- far as the filters accept them. Every directory must be there.
def discover (project : Project) (tree : FileTree) :
    Except ProjectError (List FileTree.Location) := do
  let walked ← project.directories.mapM tree.walk
  return (walked.flatten ++ project.files).eraseDups.filter fun location =>
    project.filters.accepts (.ofNames location)

end Project

end Census
