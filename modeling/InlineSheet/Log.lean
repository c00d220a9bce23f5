import InlineSheet.Transpiler

/-!
The log. Every record belongs to a channel, and all channels stand below the library's own.
-/
namespace InlineSheet.Log

def base : List Char := ['h', 's', 's']

/-- The full name of a channel: its own, if that already stands at or below the library's. -/
def channel (name : String) : String :=
  if name.toList = base ∨ (base ++ ['.']).isPrefixOf name.toList then name
  else String.ofList (base ++ '.' :: name.toList)

structure Record where
  channel : String
  message : String
  deriving DecidableEq

/-- The level of every record. -/
def level : String := "DEBUG"

def ofTranspiler (t : Transpiler) : List Record :=
  t.messages.map fun message => { channel := channel "transpiler", message }

/-- What is logged when a file has been read. -/
def fileRead (path : String) (size : Nat) : Record where
  channel := String.ofList base
  message := s!"Transpiling {path} ({size} chars)"

end InlineSheet.Log
