import InlineSheet.File.Folder
import InlineSheet.Log

/-!
Transpiling a file: find it, decode it, write its line endings alike, and transpile the text under the
name of its path.
-/
namespace InlineSheet.File

inductive Problem where
  /-- The path holds the null character, which no path may. -/
  | nullInPath
  | noFile (error : Folder.Error) (path : String)
  | unknownEncoding (name : String)
  | undecodable
  | rejected (diagnostic : Diagnostic)
  deriving DecidableEq

def Problem.message : Problem → String
  | .nullInPath => "embedded null byte"
  | .noFile error path => s!"[Errno {error.number}] {error.text}: {Text.quoted path}"
  | .unknownEncoding name => s!"unknown encoding: {name}"
  | .undecodable => "the bytes encode no text"
  | .rejected diagnostic => diagnostic.message

/-- What files are read through: the bytes that a path leads to, and the text that bytes encode in the
encoding of a name, if there is one. -/
structure Host where
  load : String → Except Problem Bytes
  decoder? : String → Option (Bytes → Option (List Char))

/-- The host with the files of a folder and the encodings of this library. A path is checked before
anything is looked for. `Encoding.ofName?` knows six names, each in one exact spelling. An alias,
another case or an underscore for a hyphen is unknown here, where another host may know it. -/
def Host.ofFolder (folder : Folder) : Host where
  load path := do
    if '\x00' ∈ path.toList then throw .nullInPath
    (folder.find path.toList).mapError (.noFile · path)
  decoder? name := (Encoding.ofName? name).map Encoding.decode

/-- The text of a file. A file that is missing is noticed before an encoding that is unknown. -/
def read (host : Host) (encoding : String) (path : String) : Except Problem String := do
  let bytes ← host.load path
  let some decode := host.decoder? encoding | .error (.unknownEncoding encoding)
  let some text := decode bytes | .error .undecodable
  return String.ofList (Text.unifyLineEndings text)

/-- What is left of transpiling a file. -/
structure Report where
  outcome : Except Problem String
  log : List Log.Record := []
  tokens : List (Region.Kind × Token) := []

def transpileOn (host : Host) (encoding : String) (d : Dialect) (path : String) : Report :=
  match read host encoding path with
  | .error problem => { outcome := .error problem }
  | .ok source =>
    let (t, outcome) := (Transpiler.new d path 1 source).run
    { outcome := outcome.mapError .rejected
      log := Log.fileRead path source.length :: Log.ofTranspiler t
      tokens := t.tokens }

def transpile (folder : Folder) (encoding : String) (d : Dialect) (path : String) : Report :=
  transpileOn (.ofFolder folder) encoding d path

/-- The encoding of a file for which none is named. -/
def standardEncoding : String := "utf-8"

end InlineSheet.File
