import Census.Cache.Key
import Census.Registry.Codec

namespace Census

open Json (Value)

-- A fragment as it is stored, with what it was made from.
structure CacheDocument where
  version : UInt32
  path : Path
  fingerprint : Fingerprint
  fragment : Registry
deriving DecidableEq, Repr

namespace CacheDocument

-- Documents of other versions are not understood.
def currentVersion : UInt32 := 1

def ofFragment (key : CacheKey) (fragment : Registry) : CacheDocument :=
  ⟨currentVersion, key.path, key.fingerprint, fragment⟩

-- The value of a document, with its path as a text.
def toJson (path : String) (document : CacheDocument) : Value :=
  .object [
    ("version", .nat document.version.toNat), ("path", .string path),
    ("fingerprint", .nat document.fingerprint.value.toNat),
    ("fragment", document.fragment.toJson)]

def ofJson? (v : Value) : Option CacheDocument :=
  match v.record? ["version", "path", "fingerprint", "fragment"] with
  | some [version, path, fingerprint, fragment] => do
      return {
        version := .ofNat (← version.nat? 0x100000000)
        path := .ofText (← path.string?)
        fingerprint := ⟨.ofNat (← fingerprint.nat? wordBound)⟩
        fragment := ← Registry.ofJson? fragment }
  | _ => none

-- The text of a document. There is none for a path that is no text.
def print? (document : CacheDocument) : Option String :=
  document.path.text?.map fun path => (document.toJson path).print

def read? (text : String) : Option CacheDocument := (Value.read? text).bind ofJson?

-- The fragment, if the document was made for the key. The annotation mode is not checked, as
-- it is part of the place where a document is stored.
def fragment? (document : CacheDocument) (key : CacheKey) : Option Registry :=
  if document.version = currentVersion ∧ document.fingerprint = key.fingerprint ∧
      document.path.Same key.path then
    some document.fragment
  else none

end CacheDocument

end Census
