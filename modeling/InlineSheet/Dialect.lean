/-!
A dialect fixes how embedded regions are marked and which calls the emitted code makes.

Stylesheet delimiters are any texts; the delimiters of a host expression are single characters,
because the brackets nested in one are counted character by character.
-/
namespace InlineSheet

structure Delimiters where
  sheetOpen : List Char := ['<', '<']
  sheetClose : List Char := ['>', '>']
  exprOpen : Char := '['
  exprClose : Char := ']'
  deriving DecidableEq

/-- The names that emitted code calls: two functions of one module. -/
structure Runtime where
  name : String := "sheath.css"
  evaluate : String := "evaluate"
  expression : String := "jsExpr"
  deriving DecidableEq

structure Dialect extends Delimiters, Runtime
  deriving DecidableEq

namespace Runtime

/-- The qualified name of the function around each stylesheet in host code. -/
def evaluateCall (r : Runtime) : List Char := r.name.toList ++ '.' :: r.evaluate.toList

/-- The qualified name of the function around each host expression in a stylesheet. -/
def expressionCall (r : Runtime) : List Char := r.name.toList ++ '.' :: r.expression.toList

end Runtime

def Dialect.standard : Dialect := {}

/-- Some stylesheet delimiter has a character. With both empty, regions open and close without end
at one place. -/
def Delimiters.Progressive (d : Delimiters) : Prop := d.sheetOpen ≠ [] ∨ d.sheetClose ≠ []

instance (d : Delimiters) : Decidable d.Progressive := inferInstanceAs (Decidable (_ ∨ _))

end InlineSheet
