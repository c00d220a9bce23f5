import InlineSheet.Proofs.Grammar
import Mathlib.Data.List.TakeWhile

/-!
# What stands at the front of a text

Literals, comments and blanks are read alike in every region. `lexeme` says which of them comes next,
and leaves every other character to the region. Its token is a nonempty front of the text and has the
form that its kind asks for. Delimiters play no part here.
-/
namespace InlineSheet

/-- What comes next, as far as that can be told without the region. -/
inductive Lexeme where
  | nothing
  | token (kind : Token.Kind) (value : List Char)
  /-- A literal that is not closed, and the part of it that can be read. -/
  | broken (ending : Literal.Ending) (taken : List Char)
  /-- A character for the region to judge. -/
  | plain (c : Char)
  deriving DecidableEq

def lexeme (cs : List Char) : Lexeme :=
  match cs with
  | [] => .nothing
  | c :: _ =>
    if Literal.isQuote c then
      if (Literal.scan cs).1 = .closed then .token .string (Literal.scan cs).2
      else .broken (Literal.scan cs).1 (Literal.scan cs).2
    else if c = '/' then .token (Comment.scan cs).1 (Comment.scan cs).2
    else if Text.isBlank c then .token .whitespace [c]
    else .plain c

/-- A character that begins no literal and no comment and is not blank. -/
def Plain (c : Char) : Prop := Literal.isQuote c = false ∧ c ≠ '/' ∧ Text.isBlank c = false

instance (c : Char) : Decidable (Plain c) := inferInstanceAs (Decidable (_ ∧ _ ∧ _))

/-- The form of a token of each kind. Of a comment only the opening is fixed, and that one of a single
line holds no line break. -/
def Token.Kind.Admits : Token.Kind → List Char → Prop
  | .string, value => Literal.Complete value
  | .whitespace, value => ∃ c, Text.isBlank c = true ∧ value = [c]
  | .text, value => ∃ c, Literal.isQuote c = false ∧ Text.isBlank c = false ∧ value = [c]
  | .comment, value => (['/', '/'] <+: value ∧ '\n' ∉ value) ∨ ['/', '*'] <+: value

theorem Token.Kind.Admits.ne_nil {kind : Token.Kind} {value : List Char} (h : kind.Admits value) :
    value ≠ [] := by
  cases kind with
  | string => exact Literal.Complete.ne_nil h
  | whitespace => obtain ⟨c, -, rfl⟩ := h; simp
  | text => obtain ⟨c, -, -, rfl⟩ := h; simp
  | comment =>
    rintro rfl
    rcases h with ⟨hp, -⟩ | hp <;> simp at hp

theorem isQuote_of_isBlank {c : Char} (h : Text.isBlank c = true) : Literal.isQuote c = false := by
  rw [← Bool.not_eq_true]
  intro hq
  simp only [Literal.isQuote, Bool.or_eq_true, beq_iff_eq] at hq
  rcases hq with (rfl | rfl) | rfl <;> exact absurd h (by decide)

theorem isBlank_of_isQuote {c : Char} (h : Literal.isQuote c = true) : Text.isBlank c = false := by
  rw [← Bool.not_eq_true]
  intro hb
  rw [isQuote_of_isBlank hb] at h
  cases h

theorem lexeme_closed {c : Char} {rest : List Char} (hc : Literal.isQuote c = true)
    (hs : (Literal.scan (c :: rest)).1 = .closed) :
    lexeme (c :: rest) = .token .string (Literal.scan (c :: rest)).2 := by
  simp only [lexeme, hc, hs, if_true]

theorem lexeme_slash (rest : List Char) :
    lexeme ('/' :: rest) =
      .token (Comment.scan ('/' :: rest)).1 (Comment.scan ('/' :: rest)).2 := by
  have hq : Literal.isQuote '/' = false := by decide
  simp [lexeme, hq]

theorem lexeme_blank {c : Char} (hc : Text.isBlank c = true) (rest : List Char) :
    lexeme (c :: rest) = .token .whitespace [c] := by
  have hs : c ≠ '/' := by
    rintro rfl
    exact absurd hc (by decide)
  simp [lexeme, isQuote_of_isBlank hc, hs, hc]

theorem lexeme_plain {c : Char} (hq : Literal.isQuote c = false) (hs : c ≠ '/')
    (hb : Text.isBlank c = false) (rest : List Char) : lexeme (c :: rest) = .plain c := by
  simp [lexeme, hq, hs, hb]

theorem lexeme_literal {value : List Char} (h : Literal.Complete value) (rest : List Char) :
    lexeme (value ++ rest) = .token .string value := by
  have hscan := Literal.scan_append h rest
  obtain ⟨quote, body, hq, -, rfl⟩ := h
  rw [List.cons_append] at hscan ⊢
  rw [lexeme_closed hq (by rw [hscan]), hscan]

theorem lexeme_block {value : List Char} (h : Comment.Block value) (rest : List Char) :
    lexeme (value ++ rest) = .token .comment value := by
  have hscan := Comment.scan_append h rest
  obtain ⟨body, -, rfl⟩ := h
  rw [List.cons_append] at hscan ⊢
  rw [lexeme_slash, hscan]

theorem lexeme_lineBreak {quote : Char} {body : List Char} (hq : Literal.isQuote quote = true)
    (hm : quote ≠ Literal.multiLineQuote) (hb : Literal.Body quote body) (rest : List Char) :
    lexeme (quote :: body ++ '\n' :: rest) = .broken .lineBreak (quote :: body) := by
  have hs := (Literal.Course.lineBreak hb hm rest).scanBody_eq hq
  simp [lexeme, Literal.scan, hq, hs]

/-- All that can stand at the front of a text that is not empty. -/
theorem lexeme_cons (c : Char) (rest : List Char) :
    (Literal.isQuote c = true ∧ (Literal.scan (c :: rest)).1 = .closed ∧
      lexeme (c :: rest) = .token .string (Literal.scan (c :: rest)).2) ∨
    (Literal.isQuote c = true ∧ (Literal.scan (c :: rest)).1 ≠ .closed ∧
      lexeme (c :: rest) =
        .broken (Literal.scan (c :: rest)).1 (Literal.scan (c :: rest)).2) ∨
    (c = '/' ∧ lexeme (c :: rest) =
      .token (Comment.scan (c :: rest)).1 (Comment.scan (c :: rest)).2) ∨
    (Text.isBlank c = true ∧ lexeme (c :: rest) = .token .whitespace [c]) ∨
    ((Literal.isQuote c = false ∧ c ≠ '/' ∧ Text.isBlank c = false) ∧
      lexeme (c :: rest) = .plain c) := by
  by_cases hq : Literal.isQuote c = true
  · by_cases hs : (Literal.scan (c :: rest)).1 = .closed
    · exact .inl ⟨hq, hs, lexeme_closed hq hs⟩
    · exact .inr (.inl ⟨hq, hs, by simp only [lexeme, hq, hs, if_true, if_false]⟩)
  · by_cases hs : c = '/'
    · exact .inr (.inr (.inl ⟨hs, hs ▸ lexeme_slash rest⟩))
    · by_cases hb : Text.isBlank c = true
      · exact .inr (.inr (.inr (.inl ⟨hb, lexeme_blank hb rest⟩)))
      · simp only [Bool.not_eq_true] at hq hb
        exact .inr (.inr (.inr (.inr ⟨⟨hq, hs, hb⟩, lexeme_plain hq hs hb rest⟩)))

theorem lexeme_eq_nothing {cs : List Char} (h : lexeme cs = .nothing) : cs = [] := by
  cases cs with
  | nil => rfl
  | cons c rest =>
    rcases lexeme_cons c rest with ⟨-, -, e⟩ | ⟨-, -, e⟩ | ⟨-, e⟩ | ⟨-, e⟩ | ⟨-, e⟩ <;>
      rw [e] at h <;> cases h

theorem cons_of_lexeme_plain {cs : List Char} {c : Char} (h : lexeme cs = .plain c) :
    ∃ rest, cs = c :: rest ∧ Literal.isQuote c = false ∧ c ≠ '/' ∧ Text.isBlank c = false := by
  cases cs with
  | nil => cases h
  | cons e rest =>
    rcases lexeme_cons e rest with ⟨-, -, he⟩ | ⟨-, -, he⟩ | ⟨-, he⟩ | ⟨-, he⟩ | ⟨hp, he⟩ <;>
      rw [he] at h <;> cases h
    exact ⟨rest, rfl, hp⟩

theorem scan_of_lexeme_broken {cs taken : List Char} {ending : Literal.Ending}
    (h : lexeme cs = .broken ending taken) :
    ∃ quote rest, cs = quote :: rest ∧ Literal.isQuote quote = true ∧
      Literal.scan cs = (ending, taken) ∧ ending ≠ .closed := by
  cases cs with
  | nil => cases h
  | cons c rest =>
    rcases lexeme_cons c rest with ⟨-, -, e⟩ | ⟨hq, hs, e⟩ | ⟨-, e⟩ | ⟨-, e⟩ | ⟨-, e⟩ <;>
      rw [e] at h <;> cases h
    exact ⟨c, rest, rfl, hq, rfl, hs⟩

/-- A literal is not closed because its line breaks or because the input ends. -/
theorem broken_cases {cs taken : List Char} {ending : Literal.Ending}
    (h : lexeme cs = .broken ending taken) :
    (ending = .lineBreak ∧ ∃ quote body rest, Literal.isQuote quote = true ∧
      quote ≠ Literal.multiLineQuote ∧ Literal.Body quote body ∧ taken = quote :: body ∧
      cs = taken ++ '\n' :: rest) ∨
    (ending = .inputEnd ∧ taken = cs) := by
  obtain ⟨quote, rest, rfl, hq, hscan, hopen⟩ := scan_of_lexeme_broken h
  simp only [Literal.scan, Prod.mk.injEq] at hscan
  obtain ⟨hending, htaken⟩ := hscan
  cases ending with
  | closed => exact absurd rfl hopen
  | lineBreak =>
    obtain ⟨hm, hb, tail, ht⟩ := Literal.body_of_scanBody_lineBreak hending
    refine .inl ⟨rfl, quote, _, tail, hq, hm, hb, htaken.symm, ?_⟩
    rw [← htaken]
    exact congrArg (quote :: ·) ht
  | inputEnd =>
    refine .inr ⟨rfl, ?_⟩
    rw [← htaken, Literal.scanBody_eq_of_inputEnd hending]

theorem Comment.scan_admits (rest : List Char) :
    (Comment.scan ('/' :: rest)).1.Admits (Comment.scan ('/' :: rest)).2 := by
  unfold Comment.scan
  split
  · next tail he =>
    refine .inl ⟨?_, ?_⟩
    · rw [he]; simp [Comment.scanLine]
    · intro hn
      simpa using List.mem_takeWhile_imp hn
  · next tail he =>
    refine .inr ?_
    rw [he]
    simp [Comment.scanBlock]
  · exact ⟨'/', by decide, by decide, rfl⟩

/-- A token is a front of the text in the form of its kind. -/
theorem admits_of_lexeme_token {cs value : List Char} {kind : Token.Kind}
    (h : lexeme cs = .token kind value) : value <+: cs ∧ kind.Admits value := by
  cases cs with
  | nil => cases h
  | cons c rest =>
    rcases lexeme_cons c rest with ⟨hq, hs, e⟩ | ⟨-, -, e⟩ | ⟨hc, e⟩ | ⟨hb, e⟩ | ⟨-, e⟩ <;>
      rw [e] at h <;> cases h
    · exact ⟨Literal.scan_isPrefix _, Literal.complete_of_scan hq (Prod.ext hs rfl)⟩
    · subst hc
      exact ⟨Comment.scan_isPrefix _, Comment.scan_admits rest⟩
    · exact ⟨⟨rest, rfl⟩, c, hb, rfl⟩

/-- Text is told apart from the rest without the region only where it is a slash. -/
theorem eq_slash_of_lexeme_text {cs value : List Char} (h : lexeme cs = .token .text value) :
    value = ['/'] := by
  cases cs with
  | nil => cases h
  | cons c rest =>
    rcases lexeme_cons c rest with ⟨-, -, e⟩ | ⟨-, -, e⟩ | ⟨hc, e⟩ | ⟨-, e⟩ | ⟨-, e⟩ <;>
      rw [e] at h
    · cases h
    · cases h
    · subst hc
      unfold Comment.scan at h
      split at h <;> cases h
      rfl
    · cases h
    · cases h

end InlineSheet
