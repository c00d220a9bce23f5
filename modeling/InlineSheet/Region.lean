import InlineSheet.Buffer
import InlineSheet.Cursor
import InlineSheet.Dialect
import InlineSheet.Literal
import InlineSheet.Token
import InlineSheet.Text.CharClass

/-!
Regions of the input. The root is host text; a stylesheet stands in the root or in a host expression,
and a host expression stands in a stylesheet:

    host text << stylesheet [ host expression << stylesheet >> ] >> host text

A region gathers the text it will emit. The root keeps every token as it is. The others drop comments
and write a run of blanks as one space; a stylesheet re-quotes single-quoted literals, and a host
expression counts its own open brackets, so that only the bracket that matches its opening one closes
it.
-/
namespace InlineSheet

inductive Region.Kind where
  | root
  | sheet
  | expr
  deriving DecidableEq

/-- An open region: where its text began, what it will emit so far, how many brackets are open in it,
and the dialect it is read in. -/
structure Region where
  kind : Region.Kind
  startLine : Int := 1
  content : Buffer := {}
  openBrackets : Int := 0
  dialect : Dialect := .standard
  deriving DecidableEq

namespace Region

namespace Kind

def all : List Kind := [.root, .sheet, .expr]

def label : Kind → String
  | .root => "ROOT"
  | .sheet => "STYLESHEET"
  | .expr => "HOST_EXPRESSION"

/-- The place of a kind in the fixed order, counted from one. -/
def number : Kind → Nat
  | .root => 1
  | .sheet => 2
  | .expr => 3

def ofLabel? (label : String) : Option Kind := all.find? (·.label == label)

theorem ofLabel?_label (k : Kind) : ofLabel? k.label = some k := by
  cases k <;> decide

def name : Kind → String
  | .root => ""
  | .sheet => "stylesheet expression"
  | .expr => "host expression"

def child : Kind → Kind
  | .root => .sheet
  | .sheet => .expr
  | .expr => .sheet

/-- The text that opens a region of this kind; nothing opens the root. -/
def opener (d : Delimiters) : Kind → List Char
  | .root => []
  | .sheet => d.sheetOpen
  | .expr => [d.exprOpen]

def closer (d : Delimiters) : Kind → List Char
  | .root => []
  | .sheet => d.sheetClose
  | .expr => [d.exprClose]

end Kind

/-- A stylesheet looks at the first character of a literal and cannot take an empty one. -/
def Refuses (r : Region) (t : Token) : Prop :=
  r.kind = .sheet ∧ t.kind = .string ∧ t.value = []

instance (r : Region) (t : Token) : Decidable (r.Refuses t) :=
  inferInstanceAs (Decidable (_ ∧ _ ∧ _))

def write (r : Region) (cs : List Char) : Region := { r with content := r.content.append cs }

/-- Adds one space, unless the text already ends in one. -/
def writeSpace (r : Region) : Region :=
  if r.content.last? = some ' ' then r else r.write [' ']

/-- The brackets open after `text`. A closing bracket without an open one is not counted. -/
def bracketsAfter (d : Delimiters) (r : Region) (text : List Char) : Int :=
  if text = [d.exprOpen] then r.openBrackets + 1
  else if text = [d.exprClose] ∧ r.openBrackets ≠ 0 then r.openBrackets - 1
  else r.openBrackets

def sheetLiteral (value : List Char) : List Char :=
  if value.head? = some '\'' then Literal.requote value else value

def accept (d : Delimiters) (r : Region) (t : Token) : Region :=
  match r.kind, t.kind with
  | .root, _ => r.write t.value
  | _, .comment => r
  | _, .whitespace => r.writeSpace
  | .sheet, .string => r.write (sheetLiteral t.value)
  | .sheet, .text => r.write t.value
  | .expr, .string => r.write t.value
  | .expr, .text => { r.write t.value with openBrackets := r.bracketsAfter d t.value }

def add? (d : Delimiters) (r : Region) (t : Token) : Option Region :=
  if r.Refuses t then none else some (r.accept d t)

def childOpener (d : Delimiters) (r : Region) : List Char := r.kind.child.opener d

/-- A region inside this one, if its opening text comes next, and the place behind that text. The two
are read in one dialect. -/
def openChild? (d : Delimiters) (r : Region) (c : Cursor) : Option (Region × Cursor) :=
  let opener := r.childOpener d
  if c.startsWith opener then
    let c := c.skip opener.length
    some ({ kind := r.kind.child, startLine := c.line, dialect := r.dialect }, c)
  else none

/-- Whether the region ends here. The root never does, and a host expression only when none of its
own brackets is open. -/
def Ends (d : Delimiters) (r : Region) (c : Cursor) : Prop :=
  r.kind ≠ .root ∧ c.startsWith (r.kind.closer d) = true ∧ (r.kind = .expr → r.openBrackets = 0)

instance (d : Delimiters) (r : Region) (c : Cursor) : Decidable (r.Ends d c) :=
  inferInstanceAs (Decidable (_ ∧ _ ∧ _))

/-- The place behind the text that closes the region, if the region ends here. -/
def close? (d : Delimiters) (r : Region) (c : Cursor) : Option Cursor :=
  if r.Ends d c then some (c.skip (r.kind.closer d).length) else none

/-- What the region is worth to the one around it: a stylesheet is a literal, and a host expression
interrupts the literal it stands in for a call. -/
def render (names : Runtime) (r : Region) : List Char :=
  let text := r.content.toList
  match r.kind with
  | .root => text
  | .sheet => ['\''] ++ Text.trim text ++ ['\'']
  | .expr => "' + ".toList ++ names.expressionCall ++ ['('] ++ text ++ ") + '".toList

/-- Takes in what a closed region inside this one is worth. Host code evaluates a stylesheet. -/
def fold (names : Runtime) (r : Region) (output : List Char) : Region :=
  match r.kind with
  | .sheet => r.write output
  | .root | .expr => r.write (names.evaluateCall ++ ['('] ++ output ++ [')'])

end Region
end InlineSheet
