import Census.Json.Text
import Census.Registry.Basic

namespace Census

open Json (Value)

-- Registries as JSON values. Numbers are below this bound.
def wordBound : Nat := 0x10000000000000000

namespace Position

def toJson (p : Position) : Value :=
  .object [("line", .nat p.line), ("column", .nat p.column)]

def ofJson? (v : Value) : Option Position :=
  match v.record? ["line", "column"] with
  | some [line, column] => do
      return ⟨← line.nat? wordBound, ← column.nat? wordBound⟩
  | _ => none

end Position

namespace Span

def toJson (s : Span) : Value :=
  .object [("start", s.start.toJson), ("end", s.stop.toJson)]

def ofJson? (v : Value) : Option Span :=
  match v.record? ["start", "end"] with
  | some [start, stop] => do
      return ⟨← Position.ofJson? start, ← Position.ofJson? stop⟩
  | _ => none

end Span

namespace DeclarationKind

def tag : DeclarationKind → String
  | .classType => "Class"
  | .interfaceType => "Interface"
  | .function => "Function"

def ofTag? (tag : String) : Option DeclarationKind :=
  [.classType, .interfaceType, .function].find? fun kind => DeclarationKind.tag kind = tag

def toJson (kind : DeclarationKind) : Value := .string kind.tag

-- A tag may also be written as the only field of an object that holds nothing.
def ofJson? : Value → Option DeclarationKind
  | .string tag => ofTag? tag
  | .object [(tag, .null)] => ofTag? tag
  | _ => none

end DeclarationKind

namespace Declaration

def toJson (d : Declaration) : Value :=
  .object [
    ("name", .string d.name), ("kind", d.kind.toJson), ("namespace", .string d.scope),
    ("exceptions", .array (d.exceptions.map .string)), ("span", d.span.toJson)]

-- An exception that is named again counts once.
def ofJson? (v : Value) : Option Declaration :=
  match v.record? ["name", "kind", "namespace", "exceptions", "span"] with
  | some [name, kind, scope, exceptions, span] => do
      return {
        name := ← name.string?
        kind := ← DeclarationKind.ofJson? kind
        scope := ← scope.string?
        exceptions := (← (← exceptions.array?).mapM Value.string?).eraseDups
        span := ← Span.ofJson? span }
  | _ => none

end Declaration

namespace Entry

def toJson (entry : Entry) : Value :=
  .object [
    ("name", .string entry.name),
    ("classes", .array (entry.classes.map Declaration.toJson)),
    ("interfaces", .array (entry.interfaces.map Declaration.toJson)),
    ("functions", .array (entry.functions.map Declaration.toJson))]

def ofJson? (v : Value) : Option Entry :=
  match v.record? ["name", "classes", "interfaces", "functions"] with
  | some [name, classes, interfaces, functions] => do
      return {
        name := ← name.string?
        classes := ← (← classes.array?).mapM Declaration.ofJson?
        interfaces := ← (← interfaces.array?).mapM Declaration.ofJson?
        functions := ← (← functions.array?).mapM Declaration.ofJson? }
  | _ => none

end Entry

namespace Registry

def toJson (registry : Registry) : Value :=
  .object [("namespaces", .object (registry.entries.map fun named =>
    (named.1, named.2.toJson)))]

-- A namespace that is given again takes the place of the first one.
def ofJson? (v : Value) : Option Registry :=
  match v.record? ["namespaces"] with
  | some [namespaces] => do
      let entries ← (← namespaces.object?).mapM fun (name, entry) => do
        return (name, ← Entry.ofJson? entry)
      return ⟨entries.foldl (fun done named => Assoc.insert named.1 named.2 done) []⟩
  | _ => none

end Registry

end Census
