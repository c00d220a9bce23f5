/-!
Text under construction. Characters are kept newest first, so that adding to the end costs only the
added text; `toList` reads them back in order.
-/
namespace InlineSheet

structure Buffer where
  /-- The characters so far, the latest in front. -/
  newestFirst : List Char := []
  deriving DecidableEq

namespace Buffer

def toList (b : Buffer) : List Char := b.newestFirst.reverse

def append (b : Buffer) (cs : List Char) : Buffer := ⟨cs.reverseAux b.newestFirst⟩

/-- The latest character, if there is one. -/
def last? (b : Buffer) : Option Char := b.newestFirst.head?

@[simp] theorem toList_empty : ({} : Buffer).toList = [] := rfl

@[simp] theorem toList_append (b : Buffer) (cs : List Char) :
    (b.append cs).toList = b.toList ++ cs := by
  simp [append, toList, List.reverseAux_eq]

@[simp] theorem append_nil (b : Buffer) : b.append [] = b := rfl

theorem last?_eq_getLast? (b : Buffer) : b.last? = b.toList.getLast? := by
  simp [last?, toList]

@[ext] theorem ext {a b : Buffer} (h : a.toList = b.toList) : a = b := by
  obtain ⟨xs⟩ := a
  obtain ⟨ys⟩ := b
  simpa [toList] using h

end Buffer
end InlineSheet
