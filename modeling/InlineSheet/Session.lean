import InlineSheet.Dialect.Settings
import InlineSheet.Transpiler

/-!
Sessions. A session has a current dialect, used where a command names none, and keeps transpilers for
later. A scoped block runs under a dialect of its own and gives back the one before it, however it is
left. A thread starts from the standard dialect, and its changes end with it; stored transpilers are
shared.
-/
namespace InlineSheet

structure Session where
  current : Dialect := .standard
  /-- Stored transpilers by name, the latest in front. -/
  stored : List (String × Transpiler) := []

namespace Session

inductive Command where
  | set (settings : Settings)
  | reset
  | get
  | transpile (settings : Option Settings) (source : String)
  | make (id : String) (settings : Option Settings) (source : String)
  | run (id : String)
  /-- A block under the given settings, left by an exception if `raises`. -/
  | scoped (settings : Settings) (raises : Bool) (body : List Command)
  | thread (body : List Command)

inductive Value where
  | nothing
  | dialect (d : Dialect)
  | text (output : String)

inductive Error where
  | settings (error : Settings.Error)
  | rejected (diagnostic : Diagnostic)
  | notStored (id : String)

/-- What a command gives, with the dialect that is current after it. -/
inductive Report where
  | single (outcome : Except Error Value) (current : Dialect)
  /-- The reports of a block, and whether an exception left it. A thread is left by none. -/
  | block (inner : List Report) (raised : Option Bool) (current : Dialect)

/-- The dialect of explicit settings, or else the current one. -/
def choose (s : Session) : Option Settings → Except Error Dialect
  | none => .ok s.current
  | some settings => settings.dialect.mapError .settings

def store (s : Session) (id : String) (t : Transpiler) : Session :=
  { s with stored := (id, t) :: s.stored }

/-- Runs the transpiler stored under a name. -/
def runStored (s : Session) (id : String) : Session × Except Error Value :=
  match s.stored.lookup id with
  | none => (s, .error (.notStored id))
  | some t =>
    let (t, outcome) := t.run
    (s.store id t, (outcome.map .text).mapError .rejected)

mutual

/-- Obeys one command. A command that fails changes nothing but the transpiler it ran. -/
def exec (s : Session) : Command → Session × Report
  | .set settings =>
    match s.choose (some settings) with
    | .ok d => ({ s with current := d }, .single (.ok .nothing) d)
    | .error e => (s, .single (.error e) s.current)
  | .reset => ({ s with current := .standard }, .single (.ok .nothing) .standard)
  | .get => (s, .single (.ok (.dialect s.current)) s.current)
  | .transpile settings source =>
    let outcome := (s.choose settings).bind fun d =>
      ((InlineSheet.transpile d Transpiler.unnamed source).map Value.text).mapError .rejected
    (s, .single outcome s.current)
  | .make id settings source =>
    match s.choose settings with
    | .ok d => (s.store id (.new d Transpiler.unnamed 1 source), .single (.ok .nothing) s.current)
    | .error e => (s, .single (.error e) s.current)
  | .run id =>
    let (s, outcome) := s.runStored id
    (s, .single outcome s.current)
  | .scoped settings raises body =>
    match s.choose (some settings) with
    | .ok d =>
      let (inside, reports) := execAll { s with current := d } body
      ({ inside with current := s.current }, .block reports (some raises) s.current)
    | .error e => (s, .single (.error e) s.current)
  | .thread body =>
    let (inside, reports) := execAll { s with current := .standard } body
    ({ inside with current := s.current }, .block reports none s.current)

def execAll (s : Session) : List Command → Session × List Report
  | [] => (s, [])
  | command :: rest =>
    let (s, report) := exec s command
    let (s, reports) := execAll s rest
    (s, report :: reports)

end

end Session
end InlineSheet
