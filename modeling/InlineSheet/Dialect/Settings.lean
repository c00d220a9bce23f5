import InlineSheet.Dialect
import InlineSheet.Text.Quoted

/-!
Settings: a dialect as seven named texts, as users write it. `Settings.dialect` checks them,
`Dialect.settings` gives them back, and the two undo each other.
-/
namespace InlineSheet

/-- The names that a setting can have. -/
inductive Settings.Field where
  | runtime
  | evaluateFunction
  | expressionFunction
  | stylesheetOpen
  | stylesheetClose
  | expressionOpen
  | expressionClose
  deriving DecidableEq

structure Settings where
  runtime : String := "sheath.css"
  evaluateFunction : String := "evaluate"
  expressionFunction : String := "jsExpr"
  stylesheetOpen : String := "<<"
  stylesheetClose : String := ">>"
  expressionOpen : String := "["
  expressionClose : String := "]"
  deriving DecidableEq

namespace Settings

/-- The fields in the order in which settings are shown. -/
def Field.all : List Field :=
  [.runtime, .evaluateFunction, .expressionFunction, .stylesheetOpen, .stylesheetClose,
    .expressionOpen, .expressionClose]

def Field.key : Field → String
  | .runtime => "runtime"
  | .evaluateFunction => "evaluate_function"
  | .expressionFunction => "expression_function"
  | .stylesheetOpen => "stylesheet_open"
  | .stylesheetClose => "stylesheet_close"
  | .expressionOpen => "expression_open"
  | .expressionClose => "expression_close"

def Field.ofKey? (key : String) : Option Field := Field.all.find? (·.key == key)

theorem Field.ofKey?_key (f : Field) : Field.ofKey? f.key = some f := by
  cases f <;> decide

def get (s : Settings) : Field → String
  | .runtime => s.runtime
  | .evaluateFunction => s.evaluateFunction
  | .expressionFunction => s.expressionFunction
  | .stylesheetOpen => s.stylesheetOpen
  | .stylesheetClose => s.stylesheetClose
  | .expressionOpen => s.expressionOpen
  | .expressionClose => s.expressionClose

def set (s : Settings) (value : String) : Field → Settings
  | .runtime => { s with runtime := value }
  | .evaluateFunction => { s with evaluateFunction := value }
  | .expressionFunction => { s with expressionFunction := value }
  | .stylesheetOpen => { s with stylesheetOpen := value }
  | .stylesheetClose => { s with stylesheetClose := value }
  | .expressionOpen => { s with expressionOpen := value }
  | .expressionClose => { s with expressionClose := value }

theorem get_set (s : Settings) (value : String) (f g : Field) :
    (s.set value f).get g = if g = f then value else s.get g := by
  cases f <;> cases g <;> rfl

/-- Why settings are refused. -/
inductive Error where
  /-- No setting has this key. -/
  | unknownKey (key : String)
  /-- A delimiter of host expressions is not one character long. -/
  | notSingle (field : Field) (value : String)
  /-- A dialect does not change once it is built. -/
  | readOnly (key : String)
  deriving DecidableEq

def Error.message : Error → String
  | .unknownKey key => s!"there is no setting {Text.quoted key}"
  | .notSingle field value =>
    s!"{field.key} must be a single character, got {Text.quoted value}"
  | .readOnly key => s!"cannot assign to field {Text.quoted key}"

/-- The standard settings changed by `entries` from left to right; keys that name no field are
passed over. -/
def ofEntries (entries : List (String × String)) : Settings :=
  entries.foldl (fun s (key, value) => ((Field.ofKey? key).map (s.set value)).getD s) {}

/-- As `ofEntries`, but a key that names no field is an error. -/
def ofEntriesStrict (entries : List (String × String)) : Except Error Settings :=
  match entries.find? (fun (key, _) => (Field.ofKey? key).isNone) with
  | some (key, _) => .error (.unknownKey key)
  | none => .ok (ofEntries entries)

/-- Reads a field that has to be one character. -/
def single (s : Settings) (field : Field) : Except Error Char :=
  match (s.get field).toList with
  | [c] => .ok c
  | _ => .error (.notSingle field (s.get field))

/-- The dialect that the settings describe. The opening delimiter of host expressions is checked
before the closing one. -/
def dialect (s : Settings) : Except Error Dialect := do
  let exprOpen ← s.single .expressionOpen
  let exprClose ← s.single .expressionClose
  return {
    sheetOpen := s.stylesheetOpen.toList
    sheetClose := s.stylesheetClose.toList
    exprOpen
    exprClose
    name := s.runtime
    evaluate := s.evaluateFunction
    expression := s.expressionFunction }

end Settings

namespace Dialect

def settings (d : Dialect) : Settings where
  runtime := d.name
  evaluateFunction := d.evaluate
  expressionFunction := d.expression
  stylesheetOpen := String.ofList d.sheetOpen
  stylesheetClose := String.ofList d.sheetClose
  expressionOpen := String.ofList [d.exprOpen]
  expressionClose := String.ofList [d.exprClose]

/-- Every dialect comes from its own settings. -/
theorem dialect_settings (d : Dialect) : d.settings.dialect = .ok d := by
  simp [settings, Settings.dialect, Settings.single, Settings.get, bind, Except.bind, pure,
    Except.pure]

/-- Settings that describe a dialect are its settings. -/
theorem settings_dialect (s : Settings) (d : Dialect) (h : s.dialect = .ok d) :
    d.settings = s := by
  simp only [Settings.dialect, Settings.single, Settings.get, bind, Except.bind, pure,
    Except.pure] at h
  split at h
  · cases h
  · next c hc =>
    split at hc
    · next o ho =>
      split at h
      · cases h
      · next c' hc' =>
        split at hc'
        · next o' ho' =>
          cases hc
          cases hc'
          cases h
          simp [settings, ← ho, ← ho']
        · cases hc'
    · cases hc

/-- A description that names every setting. -/
def describe (d : Dialect) : String :=
  let entry (field : Settings.Field) := field.key ++ "=" ++ Text.quoted (d.settings.get field)
  "TranspileConfig(" ++ ", ".intercalate (Settings.Field.all.map entry) ++ ")"

/-- A dialect is fixed: no assignment to a field of one is accepted. -/
def assign (_ : Dialect) (key _value : String) : Except Settings.Error Dialect :=
  .error (.readOnly key)

end Dialect
end InlineSheet
