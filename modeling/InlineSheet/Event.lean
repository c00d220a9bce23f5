import InlineSheet.Region

/-!
Events: what a run does, in order. A token is handed to a region, a region opens, or a region
closes. Every other record of a run, its log included, is read off its events.
-/
namespace InlineSheet

inductive Event where
  /-- A token handed to a region of kind `receiver`. -/
  | token (receiver : Region.Kind) (token : Token)
  /-- A region that opened as the `depth`-th one around the place. -/
  | opened (child : Region) (depth : Nat)
  /-- A region, as it was when it closed, and the line of the place behind its end. -/
  | closed (child : Region) (line : Int)
  deriving DecidableEq

namespace Event

/-- The part of the input that an event stands for. -/
def source (d : Delimiters) : Event → List Char
  | .token _ t => t.value
  | .opened child _ => child.kind.opener d
  | .closed child _ => child.kind.closer d

def token? : Event → Option (Region.Kind × Token)
  | .token receiver t => some (receiver, t)
  | _ => none

/-- What the log says of an event; tokens are not logged. -/
def message? (file : String) : Event → Option String
  | .token _ _ => none
  | .opened child depth =>
    some s!"{file}:{child.startLine}: opened {child.kind.name} (depth {depth})"
  | .closed child line =>
    some s!"{file}:{line}: closed {child.kind.name} opened on line {child.startLine}"

end Event
end InlineSheet
