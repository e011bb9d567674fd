import Census.Files.Tree
import Census.Settings.Basic
import Census.Xml.Event

namespace Census

-- Why a document gives no override.
inductive DocumentError where
  | unreadable
  | malformed (fault : Xml.Fault)
  | invalidValue (element value : String)
deriving DecidableEq, Repr

namespace DocumentError

def message : DocumentError → String
  | .unreadable => "the document cannot be read"
  | .malformed _ => "the document is not well formed"
  | .invalidValue element value => s!"invalid value '{value}' for <{element}>"

end DocumentError

namespace Override

-- Natural numbers in documents are below this bound, and may have a plus sign.
def nestingBound : Nat := 0x10000000000000000

def nesting? (s : String) : Option Nat :=
  let cs := s.toList
  let digits := if cs.head? = some '+' then cs.tail else cs
  match Xml.number? digits with
  | some n => if 0 < n && n < nestingBound then some n else none
  | none => none

-- Sets the field that an element names, by its own name and that of the element around it.
-- Other elements say nothing.
def setField (o : Override) (section_ element value : String) : Except DocumentError Override :=
  let required {α : Type} (read : Option α) (set : α → Override) :
      Except DocumentError Override :=
    match read with
    | some a => .ok (set a)
    | none => .error (.invalidValue element value)
  match section_, element with
  | "cache", "driver" =>
      required (CacheDriver.ofName? value) fun driver => { o with driver := some driver }
  | "cache", "location" => .ok { o with location := some value }
  | "imageConvert", "fontFamily" => .ok { o with fontFamily := some value }
  | "imageConvert", "fontSize" =>
      required (Binary32.read? value) fun size => { o with fontSize := some size }
  | "parser", "nesting" =>
      required (nesting? value) fun nesting => { o with nesting := some nesting }
  | _, _ => .ok o

-- A document that is read up to some event: the open elements, the innermost in front, and
-- what they have said.
structure Reading where
  path : List String
  override : Override

def Reading.step (r : Reading) : Xml.Event → Except DocumentError Reading
  | .opened name => .ok { r with path := name :: r.path }
  | .closed => .ok { r with path := r.path.tail }
  | .text s =>
      match r.path with
      | element :: section_ :: _ =>
          (r.override.setField section_ element (Text.trim s)).map fun o => { r with override := o }
      | _ => .ok r

-- What a document overrides. Of a bad value and a fault of the text, the first one counts.
def ofDocument (text : String) : Except DocumentError Override :=
  let (events, fault) := Xml.events text
  match events.foldlM Reading.step ⟨[], empty⟩ with
  | .error e => .error e
  | .ok r =>
      match fault with
      | some f => .error (.malformed f)
      | none => .ok r.override

-- Where stored results cannot be trusted, they are kept in memory, whatever is asked for.
def guarded (o : Override) (defect : Option String) : Override :=
  match defect with
  | some _ => { o with driver := some .memory, location := none }
  | none => o

end Override

namespace Settings

-- The settings after a document. `defect` says why stored results cannot be trusted, if so.
def read (s : Settings) (defect : Option String) (document : String) :
    Except DocumentError Settings :=
  (Override.ofDocument document).map fun o => s.overlay (o.guarded defect)

-- The settings after a document in a file, which must be valid text.
def readAt (s : Settings) (defect : Option String) (tree : FileTree) (path : Path) :
    Except DocumentError Settings :=
  match (tree.content? path).bind Text.Utf8.decode? with
  | some document => s.read defect document
  | none => .error .unreadable

end Settings

-- A document as it is handed over: its text, or a file that has it.
inductive DocumentSource where
  | text (document : String)
  | file (tree : FileTree) (path : Path)

-- Settings into which documents are read one after another. `defect` says why stored results
-- cannot be trusted, if so.
structure SettingsReader where
  settings : Settings
  defect : Option String

namespace SettingsReader

-- A document that cannot be read leaves the settings as they are.
def read (reader : SettingsReader) (source : DocumentSource) :
    Except DocumentError Settings × SettingsReader :=
  let result := match source with
    | .text document => reader.settings.read reader.defect document
    | .file tree path => reader.settings.readAt reader.defect tree path
  match result with
  | .ok settings => (.ok settings, { reader with settings := settings })
  | .error e => (.error e, reader)

def readAll (reader : SettingsReader) (sources : List DocumentSource) : SettingsReader :=
  sources.foldl (fun reader source => (reader.read source).2) reader

end SettingsReader

end Census
