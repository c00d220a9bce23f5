import InlineSheet.File.Encoding
import InlineSheet.File.Path

/-!
A working folder and the files below it. `Folder.find` follows a path from the working folder; nothing
is known of what lies outside it, except that it is there.
-/
namespace InlineSheet

/-- Files below a working folder, each by the names on the way to it and its own name at the end. A
folder is there if a file lies below it. -/
structure Folder where
  files : List (List (List Char) × Bytes)

namespace Folder

/-- Why there is no file at the end of a path. -/
inductive Error where
  | notFound
  | isFolder
  | notFolder
  /-- The path, or a name in it, is longer than any file's. -/
  | tooLong
  deriving DecidableEq

def Error.number : Error → Nat
  | .notFound => 2
  | .isFolder => 21
  | .notFolder => 20
  | .tooLong => 36

def Error.text : Error → String
  | .notFound => "No such file or directory"
  | .isFolder => "Is a directory"
  | .notFolder => "Not a directory"
  | .tooLong => "File name too long"

/-- The folder that holds the given files, each under its path from there. -/
def ofFiles (files : List (List Char × Bytes)) : Folder where
  files := files.map fun (path, bytes) => (Path.names path, bytes)

def file? (f : Folder) (place : List (List Char)) : Option Bytes := f.files.lookup place

def hasFolder (f : Folder) (place : List (List Char)) : Bool :=
  place.isEmpty || f.files.any fun (names, _) => place.isPrefixOf names && place != names

/-- Follows the parts of a path from a folder. The folder is given by the names on the way to it from
the working folder, or by nothing when it lies outside of that. -/
def walk (f : Folder) : Option (List (List Char)) → List (List Char) → Except Error Bytes
  | _, [] => .error .isFolder
  | place, part :: rest =>
    if Path.isIdle part then f.walk place rest
    else if Path.byteLength part > Path.nameLimit then .error .tooLong
    else
      match place with
      | none => if part = ['.', '.'] then f.walk none rest else .error .notFound
      | some names =>
        if part = ['.', '.'] then
          f.walk (if names.isEmpty then none else some names.dropLast) rest
        else
          let place := names ++ [part]
          if f.hasFolder place then f.walk (some place) rest
          else
            match f.file? place, rest with
            | none, _ => .error .notFound
            | some bytes, [] => .ok bytes
            | some _, _ :: _ => .error .notFolder

/-- The content of the file at the end of a path. The empty path leads nowhere. -/
def find (f : Folder) (path : List Char) : Except Error Bytes :=
  if path = [] then .error .notFound
  else if Path.byteLength path > Path.pathLimit then .error .tooLong
  else f.walk (if path.head? = some '/' then none else some []) (Path.parts path)

end Folder
end InlineSheet
