/-!
Paths as texts: the names between slashes, the plain spelling of a path, and the limits on the length
of either.
-/
namespace InlineSheet.Path

/-- The parts of a path between its slashes, empty ones included. -/
def parts (path : List Char) : List (List Char) :=
  match path with
  | [] => [[]]
  | c :: rest =>
    if c = '/' then [] :: parts rest
    else
      match parts rest with
      | [] => [[c]]
      | first :: others => (c :: first) :: others

/-- Whether a part leads nowhere new. -/
def isIdle (part : List Char) : Bool := part == [] || part == ['.']

def names (path : List Char) : List (List Char) := (parts path).filter (!isIdle ·)

/-- The slashes that a plain path begins with: as many as the path itself up to two, and one when it
has more. -/
def anchor (path : List Char) : List Char :=
  let slashes := path.takeWhile (· = '/')
  if slashes.length ≤ 2 then slashes else ['/']

/-- The path without doubled and trailing slashes and without single dots. What is then empty is the
single dot. -/
def plain (path : List Char) : List Char :=
  let text := anchor path ++ ['/'].intercalate (names path)
  if text = [] then ['.'] else text

/-- The length of a text in bytes, as it is written to the file system. -/
def byteLength (cs : List Char) : Nat := cs.foldr (fun c n => c.utf8Size + n) 0

def nameLimit : Nat := 255

def pathLimit : Nat := 4095

end InlineSheet.Path
