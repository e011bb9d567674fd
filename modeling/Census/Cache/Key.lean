import Census.Files.Path
import Census.Registry.Survey

namespace Census

-- How contents are numbered. Contents with one number cannot be told apart by it.
class ContentHash where
  number : String → UInt64

-- A number that stands for a content.
structure Fingerprint where
  value : UInt64
deriving DecidableEq, Repr

def Fingerprint.ofContent [ContentHash] (content : String) : Fingerprint :=
  ⟨ContentHash.number content⟩

-- One analysis of one content of one file.
structure CacheKey where
  path : Path
  fingerprint : Fingerprint
  mode : AnnotationMode
deriving DecidableEq, Repr

namespace CacheKey

def ofContent [ContentHash] (path : Path) (content : String) (mode : AnnotationMode) : CacheKey :=
  ⟨path, .ofContent content, mode⟩

-- What tells two keys apart. Paths count by their components.
structure Identity where
  components : List Path.Component
  fingerprint : Fingerprint
  mode : AnnotationMode
deriving DecidableEq, Repr

def identity (key : CacheKey) : Identity := ⟨key.path.components, key.fingerprint, key.mode⟩

def Same (a b : CacheKey) : Prop := a.identity = b.identity

instance (a b : CacheKey) : Decidable (a.Same b) := inferInstanceAs (Decidable (_ = _))

-- The place of a stored document. Contents of one file take turns in the same place, and so
-- do an absolute path and the relative path of the same names.
structure Slot where
  components : List Path.Component
  mode : AnnotationMode
deriving DecidableEq, Repr

def slot (key : CacheKey) : Slot := ⟨key.path.components.filter (· ≠ .root), key.mode⟩

end CacheKey

end Census
