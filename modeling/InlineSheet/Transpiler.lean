import InlineSheet.Machine

/-!
Transpilers: a machine on one source, with the dialect it reads and the name under which it reports.
`transpile` is the whole job for a source that is at hand as text.
-/
namespace InlineSheet

structure Transpiler where
  dialect : Dialect
  /-- The name of the source in logs and diagnostics. -/
  file : String
  machine : Machine
  deriving DecidableEq

namespace Transpiler

/-- The name of a source that has none. -/
def unnamed : String := "<string>"

/-- A transpiler for a source whose first character stands on `line`. -/
def new (d : Dialect) (file : String) (line : Int) (source : String) : Transpiler where
  dialect := d
  file := file
  machine := .start d source.toList line

/-- Reads the whole source. A transpiler does this only once. -/
def run (t : Transpiler) : Transpiler × Except Diagnostic String :=
  let (machine, outcome) := t.machine.transpile
  ({ t with machine },
    match outcome with
    | .ok output => .ok (String.ofList output)
    | .error failure => .error (failure.report t.dialect.toDelimiters t.file))

def tokens (t : Transpiler) : List (Region.Kind × Token) :=
  t.machine.trace.toList.filterMap Event.token?

def messages (t : Transpiler) : List String :=
  t.machine.trace.toList.filterMap (Event.message? t.file)

end Transpiler

def version : String := "0.2.0"

/-- The host text that a source in the given dialect stands for. -/
def transpile (d : Dialect) (file : String) (source : String) : Except Diagnostic String :=
  (Transpiler.new d file 1 source).run.2

end InlineSheet
