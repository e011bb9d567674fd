import Census.Assoc

namespace Census.Json

-- JSON values. The fields of an object keep their order. A number that is not a plain integer
-- keeps its text.
inductive Value where
  | null
  | bool (b : Bool)
  | integer (n : Int)
  | decimal (text : String)
  | string (s : String)
  | array (items : List Value)
  | object (fields : List (String × Value))

namespace Value

def nat (n : Nat) : Value := .integer n

-- A natural number below `bound`.
def nat? (bound : Nat) : Value → Option Nat
  | .integer (.ofNat n) => if n < bound then some n else none
  | _ => none

def string? : Value → Option String
  | .string s => some s
  | _ => none

def array? : Value → Option (List Value)
  | .array items => some items
  | _ => none

def object? : Value → Option (List (String × Value))
  | .object fields => some fields
  | _ => none

def field? (v : Value) (name : String) : Option Value :=
  v.object?.bind (Assoc.find? name)

-- The values of a record with the given fields, in their order. Each field must be there
-- once; other fields are passed over. A record may also be written as the bare list of its
-- values.
def record? (names : List String) : Value → Option (List Value)
  | .array items => if items.length = names.length then some items else none
  | .object fields =>
      names.mapM fun name =>
        match fields.filter fun field => field.1 = name with
        | [(_, v)] => some v
        | _ => none
  | _ => none

mutual

-- The value with the fields of all objects in the order of their names. Of equal names the
-- last one counts.
def sorted : Value → Value
  | .array items => .array (sortedAll items)
  | .object fields =>
      .object ((sortedFields fields).foldl (fun done field => Assoc.insert field.1 field.2 done) []
        |>.mergeSort fun a b => a.1 ≤ b.1)
  | v => v

def sortedAll : List Value → List Value
  | [] => []
  | v :: rest => v.sorted :: sortedAll rest

def sortedFields : List (String × Value) → List (String × Value)
  | [] => []
  | (name, v) :: rest => (name, v.sorted) :: sortedFields rest

end

-- Sets a field of an object, or removes it.
def setField (name : String) (v? : Option Value) : Value → Value
  | .object fields =>
      match v? with
      | some v => .object (Assoc.insert name v fields)
      | none => .object (fields.filter fun field => field.1 ≠ name)
  | v => v

end Value

end Census.Json
