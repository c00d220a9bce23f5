import InlineSheet.Literal
import Mathlib.Data.List.DropRight

/-!
# Quoting anew loses nothing

A literal that is quoted anew gets three backslashes before each single quote in it. It may hold
backslashes of its own, also right before a quote, and the two sorts look alike. Main statement: the
text between the quotes can be recovered. Take the marks off the two ends and replace, from the left,
each three backslashes with a quote behind them by the quote: what is left is that text, so two texts
that are quoted anew alike are the same. The result need not be a literal; that is not spoken of here.
-/
namespace InlineSheet

namespace Text

/-- The text with every `old` in it replaced by `new`. The text is gone through from the left, and what
has been replaced is passed over as a whole. The empty `old` stands nowhere. -/
def replaceAll (old new : List Char) : List Char → List Char
  | [] => []
  | c :: cs =>
    if old ≠ [] ∧ old <+: c :: cs then new ++ replaceAll old new (cs.drop (old.length - 1))
    else c :: replaceAll old new cs
termination_by cs => cs.length

theorem replaceAll_append {old : List Char} (new : List Char) (hold : old ≠ []) (cs : List Char) :
    replaceAll old new (old ++ cs) = new ++ replaceAll old new cs := by
  obtain ⟨o, os, rfl⟩ := List.exists_cons_of_ne_nil hold
  have hhere : o :: os ≠ [] ∧ o :: os <+: o :: (os ++ cs) := ⟨hold, cs, rfl⟩
  have hbehind : (os ++ cs).drop ((o :: os).length - 1) = cs := by simp
  rw [List.cons_append, replaceAll, if_pos hhere, hbehind]

theorem replaceAll_cons {old : List Char} (new : List Char) {c : Char} {cs : List Char}
    (h : ¬ old <+: c :: cs) : replaceAll old new (c :: cs) = c :: replaceAll old new cs := by
  rw [replaceAll, if_neg fun hhere => h hhere.2]

end Text

namespace Literal

/-- Each quote has three backslashes of its own before it, so no text begins with a quote behind fewer
of them. -/
theorem not_isPrefix_flatMap_escapeQuote {n : Nat} (hn : n < 3) (cs : List Char) :
    ¬ List.replicate n '\\' ++ ['\''] <+: cs.flatMap escapeQuote := by
  induction cs generalizing n with
  | nil => simp
  | cons c cs ih =>
    by_cases hc : c = '\''
    · subst hc
      obtain rfl | rfl | rfl : n = 0 ∨ n = 1 ∨ n = 2 := by omega
      all_goals simp [escapeQuote]
    · rw [List.flatMap_cons, escapeQuote_of_ne hc, List.singleton_append]
      cases n with
      | zero => simpa using Ne.symm hc
      | succ n =>
        rw [List.replicate_succ, List.cons_append, List.cons_prefix_cons]
        exact fun h => ih (by omega) h.2

/-- Replacing from the left finds the backslashes that were put in, whatever backslashes were there. -/
theorem replaceAll_flatMap_escapeQuote (cs : List Char) :
    Text.replaceAll ['\\', '\\', '\\', '\''] ['\''] (cs.flatMap escapeQuote) = cs := by
  induction cs with
  | nil => simp [Text.replaceAll]
  | cons c cs ih =>
    rw [List.flatMap_cons]
    by_cases hc : c = '\''
    · subst hc
      rw [escapeQuote, if_pos rfl, Text.replaceAll_append _ (List.cons_ne_nil _ _), ih]
      rfl
    · have hnot : ¬ ['\\', '\\', '\\', '\''] <+: c :: cs.flatMap escapeQuote := fun h =>
        not_isPrefix_flatMap_escapeQuote (n := 2) (by omega) cs (List.cons_prefix_cons.mp h).2
      rw [escapeQuote_of_ne hc, List.singleton_append, Text.replaceAll_cons _ hnot, ih]

theorem inner_enclosed (quote : Char) (cs : List Char) : inner (quote :: (cs ++ [quote])) = cs := by
  simp [inner]

/-- What stands between the marks of a literal that is quoted anew. -/
theorem requote_between_marks (value : List Char) :
    ((requote value).drop 2).rdrop 2 = (inner value).flatMap escapeQuote := by
  simp [requote, List.rdrop]

/-- Whatever stands between two quotes can be recovered from what it is quoted anew to, and so no two
texts are quoted anew alike. -/
theorem requote_eq_iff (quote : Char) (s t : List Char) :
    Text.replaceAll ['\\', '\\', '\\', '\''] ['\'']
      (((requote (quote :: (s ++ [quote]))).drop 2).rdrop 2) = s ∧
    (requote (quote :: (s ++ [quote])) = requote (quote :: (t ++ [quote])) ↔ s = t) := by
  have hback (cs : List Char) : Text.replaceAll ['\\', '\\', '\\', '\''] ['\'']
      (((requote (quote :: (cs ++ [quote]))).drop 2).rdrop 2) = cs := by
    rw [requote_between_marks, inner_enclosed, replaceAll_flatMap_escapeQuote]
  refine ⟨hback s, fun h => ?_, fun h => by rw [h]⟩
  rw [← hback s, h, hback t]

end Literal
end InlineSheet
