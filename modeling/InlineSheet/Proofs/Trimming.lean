import InlineSheet.Proofs.Lexeme
import InlineSheet.Region

/-!
# Trimming

A text is solid if neither of its ends is blank. Trimming takes nothing from a solid text, wherever that
stands in what is trimmed, and literals are solid, whether they are quoted anew or not.
-/
namespace InlineSheet

namespace Text

/-- A text whose two ends are not blank. -/
def Solid (cs : List Char) : Prop :=
  (∃ c ∈ cs.head?, isBlank c = false) ∧ ∃ c ∈ cs.getLast?, isBlank c = false

theorem dropWhile_append_of_head {cs : List Char} (h : ∃ c ∈ cs.head?, isBlank c = false)
    (front : List Char) : (front ++ cs).dropWhile isBlank = front.dropWhile isBlank ++ cs := by
  induction front with
  | nil =>
    obtain ⟨c, hc, hb⟩ := h
    obtain ⟨tail, rfl⟩ := List.head?_eq_some_iff.mp hc
    simp [hb]
  | cons c front ih =>
    by_cases hb : isBlank c = true
    · simp [hb, ih]
    · simp [hb]

/-- Trimming does not reach a solid text in the middle. -/
theorem trim_append_solid {middle : List Char} (h : Solid middle) (front back : List Char) :
    trim (front ++ middle ++ back) =
      front.dropWhile isBlank ++ middle ++ (back.reverse.dropWhile isBlank).reverse := by
  have hfront : ∃ c ∈ (middle ++ back).head?, isBlank c = false := by
    obtain ⟨c, hc, hb⟩ := h.1
    obtain ⟨tail, rfl⟩ := List.head?_eq_some_iff.mp hc
    exact ⟨c, rfl, hb⟩
  have hback : ∃ c ∈ (middle.reverse ++ (front.dropWhile isBlank).reverse).head?,
      isBlank c = false := by
    obtain ⟨c, hc, hb⟩ := h.2
    refine ⟨c, ?_, hb⟩
    rw [List.head?_append, List.head?_reverse, Option.mem_def.mp hc]
    rfl
  rw [trim, List.append_assoc, dropWhile_append_of_head hfront, List.reverse_append,
    List.reverse_append, List.append_assoc, dropWhile_append_of_head hback]
  simp

theorem Solid.trim_eq {cs : List Char} (h : Solid cs) : trim cs = cs := by
  simpa using trim_append_solid h [] []

theorem Solid.getLast?_ne_space {cs : List Char} (h : Solid cs) :
    ∃ c, cs.getLast? = some c ∧ c ≠ ' ' := by
  obtain ⟨c, hc, hb⟩ := h.2
  refine ⟨c, hc, ?_⟩
  rintro rfl
  exact absurd hb (by decide)

end Text

namespace Literal

theorem Complete.solid {value : List Char} (h : Complete value) : Text.Solid value := by
  obtain ⟨quote, body, hq, -, rfl⟩ := h
  have hb := isBlank_of_isQuote hq
  refine ⟨⟨quote, rfl, hb⟩, quote, ?_, hb⟩
  rw [← List.cons_append, List.getLast?_concat]
  rfl

theorem solid_requote (value : List Char) : Text.Solid (requote value) := by
  refine ⟨⟨'\\', rfl, by decide⟩, '\'', ?_, by decide⟩
  rw [requote, List.getLast?_append]
  rfl

end Literal
end InlineSheet
