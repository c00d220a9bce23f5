/-!
Character classes, given as tables of code point ranges: membership, blank characters and trimming.
-/
namespace InlineSheet.Text

/-- A set of characters, listed as inclusive ranges of code points. -/
abbrev CharClass := List (Nat × Nat)

def CharClass.contains (cls : CharClass) (c : Char) : Bool :=
  cls.any fun (lo, hi) => lo ≤ c.toNat && c.toNat ≤ hi

/-- Tabs and line breaks, the information separators, next line, and every Unicode space, line or
paragraph separator. -/
def blanks : CharClass :=
  [(0x09, 0x0D), (0x1C, 0x20), (0x85, 0x85), (0xA0, 0xA0), (0x1680, 0x1680), (0x2000, 0x200A),
    (0x2028, 0x2029), (0x202F, 0x202F), (0x205F, 0x205F), (0x3000, 0x3000)]

def isBlank (c : Char) : Bool := blanks.contains c

/-- The text without the blanks at its two ends. -/
def trim (cs : List Char) : List Char :=
  ((cs.dropWhile isBlank).reverse.dropWhile isBlank).reverse

end InlineSheet.Text
