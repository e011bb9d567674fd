import Census.Cache.Directory
import Census.Settings.Basic

namespace Census

-- A cache that settings can select. Directories outlive the caches over them, so a cache
-- holds only the location of its directory.
inductive Cache where
  | memory (entries : MemoryCache)
  | file (location : String) (front : MemoryCache)
deriving DecidableEq, Repr

-- The cache directories by location. One that is not listed has not been made yet.
structure Disk where
  directories : List (String × CacheDirectory) := []
deriving DecidableEq, Repr

namespace Disk

def empty : Disk := {}

def directory (disk : Disk) (location : String) : CacheDirectory :=
  (Assoc.find? location disk.directories).getD .empty

def setDirectory (disk : Disk) (location : String) (directory : CacheDirectory) : Disk :=
  ⟨Assoc.insert location directory disk.directories⟩

end Disk

namespace Cache

-- A new cache as the settings ask for it.
def ofSettings (settings : Settings) : Cache :=
  match settings.driver with
  | .memory => .memory .empty
  | .file => .file settings.location .empty

-- A new cache of the same kind, over the same directory if it has one.
def reopen : Cache → Cache
  | .memory _ => .memory .empty
  | .file location _ => .file location .empty

def lookup (disk : Disk) (key : CacheKey) : Cache → Option Registry × Cache
  | .memory entries => (entries.lookup key, .memory entries)
  | .file location front =>
      let (found, cache) := FileCache.lookup ⟨front, disk.directory location⟩ key
      (found, .file location cache.memory)

def store (disk : Disk) (key : CacheKey) (fragment : Registry) : Cache → Cache × Disk
  | .memory entries => (.memory (entries.store key fragment), disk)
  | .file location front =>
      let cache := FileCache.store ⟨front, disk.directory location⟩ key fragment
      (.file location cache.memory, disk.setDirectory location cache.directory)

end Cache

end Census
