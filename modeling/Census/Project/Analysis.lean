import Census.Project.Discovery

namespace Census

-- How often a cache was asked, how often it knew the answer and how often it was filled.
structure Usage where
  lookups : Nat := 0
  hits : Nat := 0
  stores : Nat := 0
deriving DecidableEq, Repr

-- A cache in use, with the directories it may write to.
structure Storage where
  cache : Cache
  disk : Disk
  usage : Usage := {}
deriving DecidableEq, Repr

namespace Storage

def lookup (storage : Storage) (key : CacheKey) : Option Registry × Storage :=
  let (found, cache) := storage.cache.lookup storage.disk key
  let usage := storage.usage
  let hits := if found.isSome then usage.hits + 1 else usage.hits
  (found, { storage with
    cache := cache
    usage := { usage with lookups := usage.lookups + 1, hits := hits } })

def store (storage : Storage) (key : CacheKey) (fragment : Registry) : Storage :=
  let (cache, disk) := storage.cache.store storage.disk key fragment
  ⟨cache, disk, { storage.usage with stores := storage.usage.stores + 1 }⟩

end Storage

-- How files are analyzed.
structure Method where
  mode : AnnotationMode
  nesting : Nat
deriving DecidableEq, Repr

namespace Method

-- The bytes of stack that a thread gets. They must hold a parse at the deepest nesting.
def stackSize (method : Method) : Nat :=
  max (min (method.nesting * 0x20000) (wordBound - 1)) 0x800000

variable [ContentHash]

-- The fragment of a text at a path, from the cache or else from its parse, which is then
-- stored.
def fragment (method : Method) (path : Path) (content : String) (storage : Storage) :
    Except ProjectError Registry × Storage :=
  let key := CacheKey.ofContent path content method.mode
  match storage.lookup key with
  | (some fragment, storage) => (.ok fragment, storage)
  | (none, storage) =>
      match parse content method.nesting with
      | .error e => (.error (.unparsable path e), storage)
      | .ok root =>
          let fragment := survey method.mode root
          (.ok fragment, storage.store key fragment)

def ofFile (method : Method) (tree : FileTree) (location : FileTree.Location)
    (storage : Storage) : Except ProjectError Registry × Storage :=
  match tree.load location with
  | .error e => (.error e, storage)
  | .ok content => method.fragment (.ofNames location) content storage

-- All files are looked at, even when some of them fail.
def ofFiles (method : Method) (tree : FileTree) :
    List FileTree.Location → Storage → List (Except ProjectError Registry) × Storage
  | [], storage => ([], storage)
  | location :: rest, storage =>
      let (result, storage) := method.ofFile tree location storage
      let (results, storage) := method.ofFiles tree rest storage
      (result :: results, storage)

end Method

-- The registry of all files, or the first failure.
def combined (results : List (Except ProjectError Registry)) : Except ProjectError Registry :=
  (results.mapM id).map fun fragments => fragments.foldl Registry.merge .empty

end Census
