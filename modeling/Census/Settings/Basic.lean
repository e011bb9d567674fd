import Census.Number.Binary32
import Census.Text.Blank

namespace Census

-- Where analysis results are kept.
inductive CacheDriver where
  | memory | file
deriving DecidableEq, Repr

namespace CacheDriver

def name : CacheDriver → String
  | .memory => "memory"
  | .file => "file"

-- The driver with a name, in any casing and with any space around it.
def ofName? (s : String) : Option CacheDriver :=
  [.memory, .file].find? fun driver => driver.name = Text.lowerCase (Text.trim s)

end CacheDriver

structure Settings where
  driver : CacheDriver
  location : String
  fontFamily : String
  fontSize : Binary32
  nesting : Nat
deriving DecidableEq, Repr

-- Settings that replace others; those that are missing leave them as they are.
structure Override where
  driver : Option CacheDriver := none
  location : Option String := none
  fontFamily : Option String := none
  fontSize : Option Binary32 := none
  nesting : Option Nat := none
deriving DecidableEq, Repr

namespace Override

def empty : Override := {}

def isEmpty (o : Override) : Bool := o = empty

end Override

namespace Settings

-- The settings of a fresh installation that keeps its cache at `location`. The font has size
-- eleven.
def standard (location : String) : Settings where
  driver := .file
  location := location
  fontFamily := "Arial"
  fontSize := ⟨0x41300000⟩
  nesting := 256

def overlay (s : Settings) (o : Override) : Settings where
  driver := o.driver.getD s.driver
  location := o.location.getD s.location
  fontFamily := o.fontFamily.getD s.fontFamily
  fontSize := o.fontSize.getD s.fontSize
  nesting := o.nesting.getD s.nesting

end Settings

end Census
