import Census.Cache.Document
import Census.Cache.Memory

namespace Census

-- The stored documents of a cache, as texts, because others may change them. A directory that
-- cannot be made takes no documents.
structure CacheDirectory where
  writable : Bool := true
  files : List (CacheKey.Slot × String) := []
deriving DecidableEq, Repr

namespace CacheDirectory

def empty : CacheDirectory := {}

def size (directory : CacheDirectory) : Nat := directory.files.length

-- Whatever is not a document for the key counts as missing.
def lookup (directory : CacheDirectory) (key : CacheKey) : Option Registry := do
  let text ← Assoc.find? key.slot directory.files
  let document ← CacheDocument.read? text
  document.fragment? key

-- A document that cannot be written leaves the one in its place.
def store (directory : CacheDirectory) (key : CacheKey) (fragment : Registry) :
    CacheDirectory :=
  match (CacheDocument.ofFragment key fragment).print? with
  | some text =>
      if directory.writable then
        { directory with files := Assoc.insert key.slot text directory.files }
      else directory
  | none => directory

end CacheDirectory

-- A directory of documents with a memory in front of it.
structure FileCache where
  memory : MemoryCache := .empty
  directory : CacheDirectory := .empty
deriving DecidableEq, Repr

namespace FileCache

-- What is found in the directory is remembered.
def lookup (cache : FileCache) (key : CacheKey) : Option Registry × FileCache :=
  match cache.memory.lookup key with
  | some fragment => (some fragment, cache)
  | none =>
      match cache.directory.lookup key with
      | some fragment => (some fragment, { cache with memory := cache.memory.store key fragment })
      | none => (none, cache)

def store (cache : FileCache) (key : CacheKey) (fragment : Registry) : FileCache :=
  ⟨cache.memory.store key fragment, cache.directory.store key fragment⟩

-- A new cache over the same directory.
def reopen (cache : FileCache) : FileCache := { cache with memory := .empty }

end FileCache

end Census
