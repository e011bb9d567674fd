import Census.Json.Value
import Census.Json.Word

namespace Census.Json

-- An array or an object that has been opened, with what it holds so far. The value under a
-- key of an object is still to come.
inductive Frame where
  | array (items : List Value)
  | object (fields : List (String × Value)) (key : String)

-- What may come next. The open arrays and objects are listed from the inside out.
inductive State where
  | value (stack : List Frame)
  | firstItem (stack : List Frame)
  | nextItem (items : List Value) (stack : List Frame)
  | firstKey (stack : List Frame)
  | nextKey (fields : List (String × Value)) (stack : List Frame)
  | colon (fields : List (String × Value)) (key : String) (stack : List Frame)
  | nextField (fields : List (String × Value)) (stack : List Frame)
  | done (v : Value)

namespace State

-- Puts a finished value into what is open around it.
def deliver (v : Value) : List Frame → State
  | [] => .done v
  | .array items :: stack => .nextItem (items ++ [v]) stack
  | .object fields key :: stack => .nextField (fields ++ [(key, v)]) stack

def beginValue (stack : List Frame) : Word → Option State
  | .openArray => some (.firstItem stack)
  | .openObject => some (.firstKey stack)
  | .null => some (deliver .null stack)
  | .bool b => some (deliver (.bool b) stack)
  | .integer n => some (deliver (.integer n) stack)
  | .decimal text => some (deliver (.decimal text) stack)
  | .string s => some (deliver (.string s) stack)
  | _ => none

def step : State → Word → Option State
  | .value stack, w => beginValue stack w
  | .firstItem stack, .closeArray => some (deliver (.array []) stack)
  | .firstItem stack, w => beginValue (.array [] :: stack) w
  | .nextItem items stack, .comma => some (.value (.array items :: stack))
  | .nextItem items stack, .closeArray => some (deliver (.array items) stack)
  | .firstKey stack, .closeObject => some (deliver (.object []) stack)
  | .firstKey stack, .string key => some (.colon [] key stack)
  | .nextKey fields stack, .string key => some (.colon fields key stack)
  | .colon fields key stack, .colon => some (.value (.object fields key :: stack))
  | .nextField fields stack, .comma => some (.nextKey fields stack)
  | .nextField fields stack, .closeObject => some (deliver (.object fields) stack)
  | _, _ => none

end State

namespace Value

-- The value that a sequence of words spells.
def ofWords? (words : List Word) : Option Value :=
  match words.foldlM State.step (.value []) with
  | some (.done v) => some v
  | _ => none

mutual

def words : Value → List Word
  | .null => [.null]
  | .bool b => [.bool b]
  | .integer n => [.integer n]
  | .decimal text => [.decimal text]
  | .string s => [.string s]
  | .array items => .openArray :: wordsOfItems items ++ [.closeArray]
  | .object fields => .openObject :: wordsOfFields fields ++ [.closeObject]

def wordsOfItems : List Value → List Word
  | [] => []
  | v :: rest => v.words ++ wordsOfNextItems rest

def wordsOfNextItems : List Value → List Word
  | [] => []
  | v :: rest => .comma :: v.words ++ wordsOfNextItems rest

def wordsOfFields : List (String × Value) → List Word
  | [] => []
  | (key, v) :: rest => .string key :: .colon :: v.words ++ wordsOfNextFields rest

def wordsOfNextFields : List (String × Value) → List Word
  | [] => []
  | (key, v) :: rest => .comma :: .string key :: .colon :: v.words ++ wordsOfNextFields rest

end

-- The text of a value without any space.
def print (v : Value) : String := String.ofList (v.words.flatMap Word.text)

-- The value that a text spells, if it is one.
def read? (text : String) : Option Value := (Word.all? 0 text.toList).bind ofWords?

end Value

end Census.Json
