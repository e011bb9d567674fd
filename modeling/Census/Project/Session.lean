import Census.Project.Analysis

namespace Census

-- A project and the world around it, all of which changes between its operations. `workers` says
-- why threads with stacks of a size cannot be started, if so.
structure Session where
  tree : FileTree
  disk : Disk := .empty
  workers : Nat → Option String := fun _ => none
  shared : Cache := .memory .empty
  usage : Usage := {}
  runs : Nat := 0
  project : Project

-- What can happen to a session. The first four are not the project's own operations.
inductive Operation where
  | restart (settings : Settings)
  | write (path : Path) (content : List UInt8)
  | makeDirectory (path : Path)
  | remove (path : Path)
  | addInput (kind : InputKind) (path : Path)
  | addFilter (filter : Filter)
  | ignoreAnnotations
  | setSettings (settings : Settings)
  | shareCache
  | analyze
  | invalidate
  | count (kind : DeclarationKind)
  | countPackages
  | package (name : String)
  | packages

-- What an operation answers when it does not fail.
inductive Answer where
  | done
  | analysis (a : Analysis)
  | number (n : Nat)
  | entry (e : Entry)

namespace Session

def setTree (session : Session) (tree : FileTree) : Session :=
  { session with tree := tree }

def setProject (session : Session) (project : Project) : Session :=
  { session with project := project }

-- The cache that the next analysis uses.
def storage (session : Session) : Storage :=
  match session.project.cache with
  | .undecided => ⟨.ofSettings session.project.settings, session.disk, {}⟩
  | .own cache => ⟨cache, session.disk, {}⟩
  | .shared => ⟨session.shared, session.disk, session.usage⟩

-- Keeps what an analysis left in its cache.
def keep (session : Session) (storage : Storage) : Session :=
  match session.project.cache with
  | .shared =>
      { session with disk := storage.disk, shared := storage.cache, usage := storage.usage }
  | _ =>
      { session with
        disk := storage.disk
        project := { session.project with cache := .own storage.cache } }

def method (session : Session) : Method :=
  ⟨session.project.mode, session.project.settings.nesting⟩

variable [ContentHash]

-- Analyzes all discovered files, whatever result there is already.
def run (session : Session) : Session × Except ProjectError Analysis :=
  match session.project.discover session.tree with
  | .error e => (session, .error e)
  | .ok locations =>
      match session.workers session.method.stackSize with
      | some cause => (session.keep session.storage, .error (.workersNotStarted cause))
      | none =>
          let (results, storage) := session.method.ofFiles session.tree locations session.storage
          let session := session.keep storage
          match combined results with
          | .error e => (session, .error e)
          | .ok registry =>
              let analysis : Analysis := ⟨session.runs + 1, registry⟩
              ({ session with
                runs := session.runs + 1
                project := { session.project with analysis := some analysis } }, .ok analysis)

-- A result that is there answers for later inputs and files, too.
def analyze (session : Session) : Session × Except ProjectError Analysis :=
  match session.project.analysis with
  | some analysis => (session, .ok analysis)
  | none => if session.project.hasInput then session.run else (session, .error .noInput)

-- The analysis that a query answers from.
def analyzed (session : Session) (query : Query) : Except ProjectError Analysis :=
  match session.project.analysis with
  | some analysis => .ok analysis
  | none => .error (.prematureQuery query)

def countQuery : DeclarationKind → Query
  | .classType => .countClasses
  | .interfaceType => .countInterfaces
  | .function => .countFunctions

def count (session : Session) (kind : DeclarationKind) : Except ProjectError Nat :=
  (session.analyzed (countQuery kind)).map fun a => a.registry.count kind

def countPackages (session : Session) : Except ProjectError Nat :=
  (session.analyzed .countPackages).map fun a => a.registry.size

def package (session : Session) (name : String) : Except ProjectError Entry := do
  let analysis ← session.analyzed .getPackage
  match analysis.registry.get? name with
  | some entry => return entry
  | none => throw (.unknownPackage name)

def addInput (session : Session) (kind : InputKind) (path : Path) :
    Session × Except ProjectError Unit :=
  match session.tree.input kind path with
  | .error e => (session, .error e)
  | .ok location => (session.setProject (session.project.addInput kind location), .ok ())

def step (session : Session) : Operation → Session × Except ProjectError Answer
  | .restart settings => (session.setProject (.ofSettings settings), .ok .done)
  | .write path content => (session.setTree (session.tree.write path content), .ok .done)
  | .makeDirectory path => (session.setTree (session.tree.makeDirectory path), .ok .done)
  | .remove path => (session.setTree (session.tree.remove path), .ok .done)
  | .addInput kind path =>
      let (session, result) := session.addInput kind path
      (session, result.map fun _ => .done)
  | .addFilter filter =>
      (session.setProject
        { session.project with filters := session.project.filters.push filter }, .ok .done)
  | .ignoreAnnotations =>
      (session.setProject { session.project with mode := .ignored }, .ok .done)
  | .setSettings settings =>
      (session.setProject (session.project.setSettings settings), .ok .done)
  | .shareCache => (session.setProject { session.project with cache := .shared }, .ok .done)
  | .analyze =>
      let (session, result) := session.analyze
      (session, result.map .analysis)
  | .invalidate => (session.setProject session.project.invalidate, .ok .done)
  | .count kind => (session, (session.count kind).map .number)
  | .countPackages => (session, session.countPackages.map .number)
  | .package name => (session, (session.package name).map .entry)
  | .packages => (session, (session.analyzed .getPackages).map .analysis)

end Session

end Census
