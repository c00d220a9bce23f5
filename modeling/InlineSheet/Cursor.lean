/-!
A forward-only place in an input text. A cursor knows how much lies behind it, what lies ahead, and
the line on which the next character stands. Only the line feed starts a new line.
-/
namespace InlineSheet

structure Cursor where
  /-- How many characters lie behind. -/
  offset : Nat := 0
  rest : List Char
  line : Int := 1
  deriving DecidableEq

namespace Cursor

def ofList (text : List Char) (line : Int) : Cursor := { rest := text, line }

def atEnd (c : Cursor) : Bool := c.rest.isEmpty

/-- How many characters lie ahead. -/
def size (c : Cursor) : Nat := c.rest.length

/-- The number of line breaks in a text. -/
def breaks (cs : List Char) : Nat := cs.count '\n'

/-- Passes over `n` characters, or over all that are left. -/
def skip (c : Cursor) (n : Nat) : Cursor where
  offset := c.offset + min n c.rest.length
  rest := c.rest.drop n
  line := c.line + breaks (c.rest.take n)

/-- The characters from here up to `n` further on. A stop in front of the whole text counts from its
end instead, and a stop behind the cursor gives nothing. -/
def peek (c : Cursor) (n : Int) : List Char :=
  let stop := c.offset + n
  let stop := if stop < 0 then stop + c.offset + c.rest.length else stop
  c.rest.take (stop - c.offset).toNat

/-- Whether `delimiter` comes next; the empty one always does. -/
def startsWith (c : Cursor) (delimiter : List Char) : Bool := delimiter.isPrefixOf c.rest

@[simp] theorem peek_natCast (c : Cursor) (n : Nat) : c.peek n = c.rest.take n := by
  have h : ¬ ((c.offset : Int) + n < 0) := by omega
  simp only [peek, h, if_false]
  congr 1
  omega

@[simp] theorem skip_zero (c : Cursor) : c.skip 0 = c := by
  simp [skip, breaks]

theorem skip_skip (c : Cursor) (m n : Nat) : (c.skip m).skip n = c.skip (m + n) := by
  have hline : breaks (c.rest.take m) + breaks ((c.rest.drop m).take n) =
      breaks (c.rest.take (m + n)) := by
    simp [breaks, List.take_add, List.count_append]
  simp only [skip, List.drop_drop, List.length_drop, mk.injEq, true_and]
  constructor
  · omega
  · rw [← hline]
    omega

theorem size_skip (c : Cursor) (n : Nat) : (c.skip n).size = c.size - n := by
  simp [size, skip]

end Cursor
end InlineSheet
