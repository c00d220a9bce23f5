import InlineSheet.Comment
import InlineSheet.Event
import InlineSheet.Failure

/-!
The machine that reads a source. It holds a place in the input, the regions open there, innermost
first, and the events so far.

Each operation can be applied in every state, whatever comes next in the input. `step` picks the one
that fits: a literal, a comment, a blank, the start of a region, the end of the innermost region, or
else one character of text. `run` repeats it until the input ends or an operation fails.
-/
namespace InlineSheet

structure Machine where
  cursor : Cursor
  /-- The innermost open region. -/
  top : Region
  /-- The regions around it, from the inside out. -/
  below : List Region := []
  /-- Whether the machine has been set to read its whole input. -/
  spent : Bool := false
  trace : Array Event := #[]
  deriving DecidableEq

/-- What an operation leaves: the machine after it, and why the operation failed, if it did. A failure
takes back nothing that was read before it. -/
structure Progress where
  machine : Machine
  failure : Option Failure := none
  deriving DecidableEq

namespace Machine

/-- A machine in front of a whole source, which it reads in the dialect `d`. -/
def start (d : Dialect) (source : List Char) (line : Int) : Machine where
  cursor := .ofList source line
  top := { kind := .root, startLine := line, dialect := d }

def depth (m : Machine) : Nat := m.below.length

/-- All open regions, from the inside out. -/
def stack (m : Machine) : List Region := m.top :: m.below

def record (m : Machine) (e : Event) : Machine := { m with trace := m.trace.push e }

def skip (m : Machine) (n : Nat) : Machine := { m with cursor := m.cursor.skip n }

/-- Passes over `value`, which comes next in the input, and hands it to the innermost region. -/
def deliver (d : Delimiters) (m : Machine) (kind : Token.Kind) (value : List Char) : Progress :=
  let token : Token := { kind, value, line := m.cursor.line }
  let m := (m.skip value.length).record (.token m.top.kind token)
  match m.top.add? d token with
  | some top => { machine := { m with top } }
  | none => { machine := m, failure := some .emptyString }

/-- Reads a literal. Where it is not closed, the machine stops at the place at which this shows. -/
def scanString (d : Delimiters) (m : Machine) : Progress :=
  let (ending, taken) := Literal.scan m.cursor.rest
  match ending with
  | .closed => m.deliver d .string taken
  | .lineBreak =>
    let m := m.skip taken.length
    { machine := m, failure := some (.multiLineString m.cursor.line) }
  | .inputEnd =>
    let m := m.skip taken.length
    { machine := m, failure := some (.unclosedString m.cursor.line) }

def scanComment (d : Delimiters) (m : Machine) : Progress :=
  let (kind, value) := Comment.scan m.cursor.rest
  m.deliver d kind value

def scanLineComment (d : Delimiters) (m : Machine) : Progress :=
  m.deliver d .comment (Comment.scanLine m.cursor.rest)

def scanBlockComment (d : Delimiters) (m : Machine) : Progress :=
  m.deliver d .comment (Comment.scanBlock m.cursor.rest)

def scanBlank (d : Delimiters) (m : Machine) : Progress :=
  m.deliver d .whitespace (m.cursor.rest.take 1)

def scanText (d : Delimiters) (m : Machine) : Progress :=
  m.deliver d .text (m.cursor.rest.take 1)

def openChild? (d : Delimiters) (m : Machine) : Option Machine :=
  (m.top.openChild? d m.cursor).map fun (child, cursor) =>
    { m with cursor, top := child, below := m.top :: m.below }.record (.opened child (m.depth + 1))

/-- Takes the innermost region off and folds it into the one around it. -/
def pop (d : Dialect) (m : Machine) : Progress :=
  match m.below with
  | [] => { machine := m, failure := some .nothingAround }
  | parent :: below =>
    let top := parent.fold parent.dialect.toRuntime (m.top.render d.toRuntime)
    { machine := { m with top, below }.record (.closed m.top m.cursor.line) }

def close? (d : Dialect) (m : Machine) : Option Progress :=
  (m.top.close? d.toDelimiters m.cursor).map fun cursor => { m with cursor }.pop d

/-- Reads what comes next. -/
def step (d : Dialect) (m : Machine) : Progress :=
  match m.cursor.rest with
  | [] => { machine := m }
  | c :: _ =>
    if Literal.isQuote c then m.scanString d.toDelimiters
    else if c = '/' then m.scanComment d.toDelimiters
    else if Text.isBlank c then m.scanBlank d.toDelimiters
    else
      match m.openChild? d.toDelimiters with
      | some m => { machine := m }
      | none => (m.close? d).getD (m.scanText d.toDelimiters)

/-- Reads on until the input ends, for at most the given number of rounds. Each round is made in the
dialect of the innermost region. -/
def runFor : Nat → Machine → Progress
  | 0, m => { machine := m, failure := if m.cursor.atEnd then none else some .stalled }
  | rounds + 1, m =>
    if m.cursor.atEnd then { machine := m }
    else
      let next := m.step m.top.dialect
      match next.failure with
      | none => next.machine.runFor rounds
      | some _ => next

/-- Reads on until the input ends. Two rounds for each character are enough: a round that takes no
input opens or closes a stylesheet at an empty delimiter, and the next round takes some. -/
def run (m : Machine) : Progress := m.runFor (2 * m.cursor.size)

/-- What the source was worth, once all of it is read. -/
def result (d : Dialect) (m : Machine) : Except Failure (List Char) :=
  if m.top.kind = .root then .ok (m.top.render d.toRuntime)
  else .error (.unclosedRegion m.top.kind m.top.startLine m.cursor.line)

/-- Reads the whole input and gives the host text it stands for. A machine does this only once. -/
def transpile (m : Machine) : Machine × Except Failure (List Char) :=
  if m.spent then (m, .error .spent)
  else
    let p := { m with spent := true }.run
    match p.failure with
    | none => (p.machine, p.machine.result p.machine.top.dialect)
    | some failure => (p.machine, .error failure)

end Machine
end InlineSheet
