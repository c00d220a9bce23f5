import InlineSheet.Proofs.Loop

/-!
# Reading a literal

What reading a literal comes to is settled by the grammar of the text ahead. Main statement: in front of
a quote just one of three things stands ahead, a literal, items up to a line break that may not stand
there, or items up to the end of the input, and reading does what fits: it takes that literal, which is
the only one, or it stops at that place and changes nothing else. Which region is open makes no
difference.
-/
namespace InlineSheet

/-- Just one of the three holds. -/
def OneOf (a b c : Prop) : Prop := (a ∧ ¬ b ∧ ¬ c) ∨ (¬ a ∧ b ∧ ¬ c) ∨ (¬ a ∧ ¬ b ∧ c)

namespace Literal

/-- Behind the opening quote, items run into a line break that may not stand there; it and all that
follows are `'\n' :: behind`. -/
def BreaksBefore (quote : Char) (rest behind : List Char) : Prop :=
  quote ≠ multiLineQuote ∧ ∃ body, Body quote body ∧ rest = body ++ '\n' :: behind

/-- Behind the opening quote, items go on to the end, where a backslash may be left over. -/
def RunsOut (quote : Char) (rest : List Char) : Prop :=
  ∃ body, Body quote body ∧ (rest = body ∨ rest = body ++ ['\\'])

section Quote

variable {quote : Char} {rest : List Char}

/-- A literal in front begins with the quote there, so it is read. -/
theorem Complete.scan_eq {value : List Char} (h : Complete value) (hp : value <+: quote :: rest) :
    scan (quote :: rest) = (.closed, value) := by
  obtain ⟨tail, ht⟩ := hp
  rw [← ht]
  exact scan_append h tail

theorem BreaksBefore.scan_eq {behind : List Char} (hq : isQuote quote = true)
    (h : BreaksBefore quote rest behind) :
    ∃ taken, scan (quote :: rest) = (.lineBreak, taken) ∧ quote :: rest = taken ++ '\n' :: behind := by
  obtain ⟨hm, body, hb, rfl⟩ := h
  have hs := (Course.lineBreak hb hm behind).scanBody_eq hq
  exact ⟨quote :: body, by rw [scan, hs], rfl⟩

theorem RunsOut.scan_eq (hq : isQuote quote = true) (h : RunsOut quote rest) :
    scan (quote :: rest) = (.inputEnd, quote :: rest) := by
  obtain ⟨body, hb, rfl | rfl⟩ := h
  · rw [scan, (Course.inputEnd hb).scanBody_eq hq]
  · rw [scan, (Course.backslash hb).scanBody_eq hq]

/-- Each way in which reading can end has its own reason in the text. -/
theorem oneOf_course (hq : isQuote quote = true) (rest : List Char) :
    OneOf (∃ value, Complete value ∧ value <+: quote :: rest)
      (∃ behind, BreaksBefore quote rest behind) (RunsOut quote rest) := by
  have hclosed : (∃ value, Complete value ∧ value <+: quote :: rest) →
      (scan (quote :: rest)).1 = .closed := by
    rintro ⟨value, h, hp⟩
    rw [h.scan_eq hp]
  have hbreak : (∃ behind, BreaksBefore quote rest behind) →
      (scan (quote :: rest)).1 = .lineBreak := by
    rintro ⟨behind, h⟩
    obtain ⟨taken, hs, -⟩ := h.scan_eq hq
    rw [hs]
  have hend : RunsOut quote rest → (scan (quote :: rest)).1 = .inputEnd := fun h => by
    rw [h.scan_eq hq]
  have hcourse := course_scanBody quote rest
  rw [scan] at hclosed hbreak hend
  generalize (scanBody quote rest).1 = ending, (scanBody quote rest).2 = taken
    at hclosed hbreak hend hcourse
  cases hcourse with
  | closed hb tail =>
    refine .inl ⟨?_, fun h => absurd (hbreak h) (by decide), fun h => absurd (hend h) (by decide)⟩
    exact ⟨_, ⟨quote, _, hq, hb, rfl⟩, tail, by simp⟩
  | lineBreak hb hm behind =>
    refine .inr (.inl ⟨fun h => absurd (hclosed h) (by decide), ?_,
      fun h => absurd (hend h) (by decide)⟩)
    exact ⟨behind, hm, _, hb, rfl⟩
  | inputEnd hb =>
    refine .inr (.inr ⟨fun h => absurd (hclosed h) (by decide),
      fun h => absurd (hbreak h) (by decide), ?_⟩)
    exact ⟨_, hb, .inl rfl⟩
  | backslash hb =>
    refine .inr (.inr ⟨fun h => absurd (hclosed h) (by decide),
      fun h => absurd (hbreak h) (by decide), ?_⟩)
    exact ⟨_, hb, .inr rfl⟩

end Quote
end Literal

/-- The operation failed with this text, on the line at which it stopped, and left all of `m` as it was
but the place in the input. -/
structure Progress.Raises (m : Machine) (text : String) (p : Progress) : Prop where
  report : ∀ (d : Delimiters) (file : String), p.failure.map (Failure.report d file) =
    some (.located (.unterminatedString text) (some p.machine.cursor.line) (some file))
  moved : ∃ n, p.machine = m.skip n

namespace Machine

theorem raises_scanString (d : Delimiters) {m : Machine} {ending : Literal.Ending}
    {taken behind : List Char} (hs : Literal.scan m.cursor.rest = (ending, taken))
    (hc : ending ≠ .closed) (hr : m.cursor.rest = taken ++ behind) :
    (m.scanString d).Raises m
      (if ending = .lineBreak then "Unexpected multi-line string" else "Unexpected end of file") ∧
    (m.scanString d).machine.cursor.rest = behind := by
  rw [scanString_broken d hs hc]
  refine ⟨⟨fun d file => ?_, taken.length, rfl⟩, ?_⟩
  · cases ending with
    | closed => exact absurd rfl hc
    | lineBreak | inputEnd => rfl
  · simp [skip, Cursor.skip, hr]

/-- In front of a quote, reading a literal takes the one literal that stands there and hands it to the
innermost region, or it stops at the line break or at the end that the literal runs into. -/
theorem scanString_exact (d : Delimiters) (m : Machine) (quote : Char) (rest : List Char)
    (hq : Literal.isQuote quote = true) (hr : m.cursor.rest = quote :: rest) :
    OneOf (∃ value, Literal.Complete value ∧ value <+: m.cursor.rest)
      (∃ behind, Literal.BreaksBefore quote rest behind) (Literal.RunsOut quote rest) ∧
    (∀ value, Literal.Complete value → value <+: m.cursor.rest →
      m.scanString d = { machine := m.took d .string value } ∧
      ∀ other, Literal.Complete other → other <+: m.cursor.rest → other = value) ∧
    (∀ behind, Literal.BreaksBefore quote rest behind →
      (m.scanString d).Raises m "Unexpected multi-line string" ∧
      (m.scanString d).machine.cursor.rest = '\n' :: behind) ∧
    (Literal.RunsOut quote rest →
      (m.scanString d).Raises m "Unexpected end of file" ∧
      (m.scanString d).machine.cursor.rest = []) := by
  refine ⟨hr ▸ Literal.oneOf_course hq rest, ?_, ?_, ?_⟩
  · intro value hv hp
    have hs : Literal.scan m.cursor.rest = (.closed, value) := by
      rw [hr] at hp ⊢
      exact hv.scan_eq hp
    refine ⟨scanString_closed d hs hv.ne_nil, fun other ho hpo => ?_⟩
    rw [hr] at hs hpo
    have he := (ho.scan_eq hpo).symm.trans hs
    exact (Prod.mk.inj he).2
  · intro behind hb
    obtain ⟨taken, hs, ht⟩ := hb.scan_eq hq
    rw [← hr] at hs ht
    exact raises_scanString d hs (by decide) ht
  · intro ho
    have hs := ho.scan_eq hq
    rw [← hr] at hs
    exact raises_scanString d hs (by decide) (List.append_nil _).symm

/-- Three backslashes before a quote escape it, two do not. -/
theorem scanString_exact_backslashes :
    Literal.isQuote '\'' = true ∧
    Machine.scanString {} { cursor := .ofList "'\\\\\\'\\\\'\\'".toList 1, top := { kind := .sheet } } =
      { machine := took {} { cursor := .ofList "'\\\\\\'\\\\'\\'".toList 1, top := { kind := .sheet } }
          .string ['\'', '\\', '\\', '\\', '\'', '\\', '\\', '\''] } := by
  have hq : Literal.isQuote '\'' = true := by decide
  have hb : Literal.Body '\'' ['\\', '\\', '\\', '\'', '\\', '\\'] :=
    .escaped _ (.escaped _ (.escaped _ .nil))
  exact ⟨hq, ((scanString_exact {} _ '\'' _ hq rfl).2.1 _ ⟨'\'', _, hq, hb, rfl⟩
    ⟨['\\', '\''], by decide⟩).1⟩

end Machine
end InlineSheet
