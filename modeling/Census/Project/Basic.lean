import Census.Cache.Basic
import Census.Files.Filter
import Census.Files.Tree

namespace Census

-- The result of an analysis that really ran, and which run that was.
structure Analysis where
  run : Nat
  registry : Registry
deriving DecidableEq, Repr

-- The cache of a project: none so far, one of its own, or the cache that its user shares
-- between projects.
inductive CacheChoice where
  | undecided
  | own (cache : Cache)
  | shared
deriving DecidableEq, Repr

inductive Stage where
  | unconfigured | configured | analyzed
deriving DecidableEq, Repr

-- What to analyze and how, and the last result.
structure Project where
  directories : List FileTree.Location := []
  files : List FileTree.Location := []
  filters : Filters := {}
  mode : AnnotationMode := .heeded
  settings : Settings
  cache : CacheChoice := .undecided
  analysis : Option Analysis := none

namespace Project

def ofSettings (settings : Settings) : Project := { settings := settings }

def hasInput (project : Project) : Bool :=
  !(project.directories.isEmpty && project.files.isEmpty)

def stage (project : Project) : Stage :=
  if project.analysis.isSome then .analyzed
  else if project.hasInput then .configured
  else .unconfigured

-- A cache that the old settings selected is given up, a shared one stays.
def setSettings (project : Project) (settings : Settings) : Project :=
  { project with
    settings := settings
    cache := match project.cache with
      | .shared => .shared
      | _ => .undecided }

def invalidate (project : Project) : Project := { project with analysis := none }

end Project

end Census
