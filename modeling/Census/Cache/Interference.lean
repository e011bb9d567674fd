import Census.Cache.Directory

namespace Census.CacheDirectory

open Json (Value)

-- What others can see of the stored documents, and what they can do to them.

-- Puts one text into the place of every document.
def overwrite (text : String) (directory : CacheDirectory) : CacheDirectory :=
  { directory with files := directory.files.map fun file => (file.1, text) }

-- Sets a field of a document, or removes it. The document is written again with its fields in
-- the order of their names, each once.
def editText (field : String) (v? : Option Value) (text : String) : String :=
  match Value.read? text with
  | some v => (v.sorted.setField field v?).sorted.print
  | none => text

def edit (field : String) (v? : Option Value) (directory : CacheDirectory) : CacheDirectory :=
  { directory with
    files := directory.files.map fun file => (file.1, editText field v? file.2) }

-- The fields of a document that do not depend on how contents are numbered.
structure Listing where
  version : Value
  path : Value
  fragment : Value

namespace Listing

def ofText (text : String) : Listing :=
  let document := ((Value.read? text).getD .null).sorted
  let field (name : String) : Value := (document.field? name).getD .null
  ⟨field "version", field "path", field "fragment"⟩

def toJson (listing : Listing) : Value :=
  .array [listing.version, listing.path, listing.fragment]

def pathText (listing : Listing) : String := listing.path.string?.getD listing.path.print

-- Listings are ordered by path and then by their text.
def le (a b : Listing) : Bool :=
  if a.pathText = b.pathText then a.toJson.print ≤ b.toJson.print else a.pathText ≤ b.pathText

end Listing

def listings (directory : CacheDirectory) : List Listing :=
  (directory.files.map fun file => Listing.ofText file.2).mergeSort Listing.le

end Census.CacheDirectory
