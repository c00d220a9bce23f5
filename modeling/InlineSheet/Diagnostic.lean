/-!
Diagnostics: what is reported to the caller when a source is rejected or a transpiler is misused. A
located diagnostic puts the file and the line, as far as they are known, in front of its text.
-/
namespace InlineSheet

inductive Diagnostic.Cause where
  | malformed (text : String)
  | unterminatedString (text : String)
  | unterminatedRegion (region closer : String) (startLine : Int)
  deriving DecidableEq

inductive Diagnostic where
  /-- A complaint that has no place in a source. -/
  | general (text : String)
  | located (cause : Diagnostic.Cause) (line : Option Int) (file : Option String)
  /-- A rule of the library itself is broken. -/
  | defect (text : String)
  deriving DecidableEq

namespace Diagnostic

/-- The sorts of complaint that callers tell apart, each a case of the one above it. -/
inductive Category where
  | general
  | rejected
  | unterminatedString
  | unterminatedRegion
  deriving DecidableEq

/-- A category and all those it is a case of, nearest first. -/
def Category.lineage : Category → List Category
  | .general => [.general]
  | .rejected => [.rejected, .general]
  | .unterminatedString => [.unterminatedString, .rejected, .general]
  | .unterminatedRegion => [.unterminatedRegion, .rejected, .general]

/-- The category of a complaint; a defect is in none. -/
def category? : Diagnostic → Option Category
  | .general _ => some .general
  | .located (.malformed _) _ _ => some .rejected
  | .located (.unterminatedString _) _ _ => some .unterminatedString
  | .located (.unterminatedRegion _ _ _) _ _ => some .unterminatedRegion
  | .defect _ => none

def Cause.text : Cause → String
  | .malformed text => text
  | .unterminatedString text => text
  | .unterminatedRegion region closer startLine =>
    "Unexpected end of file. It looks like you forgot the closing \"" ++ closer ++ "\" of the " ++
      region ++ " beginning on line " ++ toString startLine ++ "."

def dropColons (cs : List Char) : List Char := (cs.reverse.dropWhile (· = ':')).reverse

/-- The place, followed by one space, or nothing when neither part of it is known. An empty file name
counts as unknown. -/
def place (line : Option Int) (file : Option String) : String :=
  let filePart := match file with
    | none => ""
    | some file => if file = "" then "" else file ++ ":"
  let linePart := match line with
    | none => ""
    | some line => toString line ++ ":"
  let text := filePart ++ linePart
  if text = "" then "" else String.ofList (dropColons text.toList) ++ " "

def message : Diagnostic → String
  | .general text => text
  | .located cause line file => place line file ++ cause.text
  | .defect text => text

end Diagnostic
end InlineSheet
