import Census.Assoc
import Census.Text.Position

namespace Census

inductive DeclarationKind where
  | classType | interfaceType | function
deriving DecidableEq, Repr

-- One class, interface or function. The exceptions are named in the order in which they were
-- first seen.
structure Declaration where
  name : String
  kind : DeclarationKind
  scope : String
  exceptions : List String
  span : Span
deriving DecidableEq, Repr

-- The declarations of one namespace; each list is in the order of insertion.
structure Entry where
  name : String
  classes : List Declaration := []
  interfaces : List Declaration := []
  functions : List Declaration := []
deriving DecidableEq, Repr

namespace Entry

def ofKind (entry : Entry) : DeclarationKind → List Declaration
  | .classType => entry.classes
  | .interfaceType => entry.interfaces
  | .function => entry.functions

-- Declarations of the same name are kept side by side.
def push (entry : Entry) (d : Declaration) : Entry :=
  match d.kind with
  | .classType => { entry with classes := entry.classes ++ [d] }
  | .interfaceType => { entry with interfaces := entry.interfaces ++ [d] }
  | .function => { entry with functions := entry.functions ++ [d] }

-- Takes over all declarations of another entry.
def absorb (entry other : Entry) : Entry :=
  { entry with
    classes := entry.classes ++ other.classes
    interfaces := entry.interfaces ++ other.interfaces
    functions := entry.functions ++ other.functions }

def declarations (entry : Entry) : List Declaration :=
  entry.classes ++ entry.interfaces ++ entry.functions

def size (entry : Entry) : Nat := entry.declarations.length

-- The first declaration of a kind with a name.
def find? (entry : Entry) (kind : DeclarationKind) (name : String) : Option Declaration :=
  (entry.ofKind kind).find? fun d => d.name = name

@[simp] theorem name_push (entry : Entry) (d : Declaration) : (entry.push d).name = entry.name := by
  unfold push
  split <;> rfl

theorem ofKind_push (entry : Entry) (d : Declaration) (kind : DeclarationKind) :
    (entry.push d).ofKind kind =
      if d.kind = kind then entry.ofKind kind ++ [d] else entry.ofKind kind := by
  unfold push
  cases h : d.kind <;> cases kind <;> simp [ofKind]

theorem ofKind_absorb (entry other : Entry) (kind : DeclarationKind) :
    (entry.absorb other).ofKind kind = entry.ofKind kind ++ other.ofKind kind := by
  cases kind <;> rfl

end Entry

-- Namespaces by name, in the order of their first insertion. What a single file contributes
-- is a registry too.
structure Registry where
  entries : List (String × Entry) := []
deriving DecidableEq, Repr

namespace Registry

def empty : Registry := {}

-- Adds a declaration to its namespace, which is created if it is new.
def push (registry : Registry) (d : Declaration) : Registry :=
  ⟨Assoc.alter d.scope (fun old => (old.getD { name := d.scope }).push d)
    registry.entries⟩

def ofDeclarations (ds : List Declaration) : Registry := ds.foldl push empty

-- Adds all namespaces of another registry. Known ones keep their place and grow, new ones
-- are appended.
def merge (registry other : Registry) : Registry :=
  ⟨other.entries.foldl (fun entries named =>
    Assoc.alter named.1 (fun old => old.elim named.2 (·.absorb named.2)) entries)
    registry.entries⟩

def names (registry : Registry) : List String := registry.entries.map (·.1)

def toList (registry : Registry) : List Entry := registry.entries.map (·.2)

def get? (registry : Registry) (name : String) : Option Entry :=
  Assoc.find? name registry.entries

def contains (registry : Registry) (name : String) : Bool := (registry.get? name).isSome

def size (registry : Registry) : Nat := registry.entries.length

def isEmpty (registry : Registry) : Bool := registry.entries.isEmpty

def declarations (registry : Registry) : List Declaration :=
  registry.toList.flatMap Entry.declarations

-- The number of declarations of a kind in all namespaces.
def count (registry : Registry) (kind : DeclarationKind) : Nat :=
  (registry.toList.flatMap fun entry => entry.ofKind kind).length

end Registry

end Census
