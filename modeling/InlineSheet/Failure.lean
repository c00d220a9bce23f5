import InlineSheet.Diagnostic
import InlineSheet.Region

/-!
Failures: the ways in which a machine can stop. `Failure.report` words one for the caller.
-/
namespace InlineSheet

inductive Failure where
  /-- A line breaks inside a literal that has to end on its line. -/
  | multiLineString (line : Int)
  /-- The input ends inside a literal. -/
  | unclosedString (line : Int)
  /-- The input ends inside a region. -/
  | unclosedRegion (kind : Region.Kind) (startLine line : Int)
  /-- The machine has already been run. -/
  | spent
  /-- A stylesheet was handed an empty literal. -/
  | emptyString
  /-- A region ended that has no region around it. -/
  | nothingAround
  /-- The rounds ran out before the input did. -/
  | stalled
  deriving DecidableEq

namespace Failure

/-- The failure as the caller gets to see it. -/
def report (d : Delimiters) (file : String) : Failure → Diagnostic
  | .multiLineString line =>
    .located (.unterminatedString "Unexpected multi-line string") (some line) (some file)
  | .unclosedString line =>
    .located (.unterminatedString "Unexpected end of file") (some line) (some file)
  | .unclosedRegion kind startLine line =>
    .located (.unterminatedRegion kind.name (String.ofList (kind.closer d)) startLine) (some line)
      (some file)
  | .spent => .general "Transpiler instances are single-use"
  | .emptyString => .defect "string index out of range"
  | .nothingAround => .defect "list index out of range"
  | .stalled => .defect "the delimiters take no input"

end Failure
end InlineSheet
