import Census.Assoc
import Census.Cache.Key

namespace Census

-- Fragments that are kept as long as the program runs.
structure MemoryCache where
  entries : List (CacheKey.Identity × Registry) := []
deriving DecidableEq, Repr

namespace MemoryCache

def empty : MemoryCache := {}

def lookup (cache : MemoryCache) (key : CacheKey) : Option Registry :=
  Assoc.find? key.identity cache.entries

def store (cache : MemoryCache) (key : CacheKey) (fragment : Registry) : MemoryCache :=
  ⟨Assoc.insert key.identity fragment cache.entries⟩

def size (cache : MemoryCache) : Nat := cache.entries.length

@[simp] theorem lookup_empty (key : CacheKey) : empty.lookup key = none := rfl

-- A store changes what is found under the same key and nothing else.
theorem lookup_store (cache : MemoryCache) (key key' : CacheKey) (fragment : Registry) :
    (cache.store key fragment).lookup key' =
      if key.Same key' then some fragment else cache.lookup key' := by
  unfold lookup store Assoc.insert
  split
  · rename_i h
    rw [show key.identity = key'.identity from h, Assoc.find?_alter_self]
  · rename_i h
    exact Assoc.find?_alter_of_ne (fun heq => h heq.symm) _ _

end MemoryCache

end Census
