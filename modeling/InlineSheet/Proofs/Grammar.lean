import InlineSheet.Comment
import InlineSheet.Literal

/-!
# The grammar of literals and comments

`Literal.Body` and `Literal.Complete` say what a string literal is without reading one, `Literal.Course`
how a text behind an opening quote can go on, and `Comment.Block` what a block comment is that is
closed. The scanners follow these, wherever the text goes on behind them. What becomes of a comment
that is not closed is left open here.
-/
namespace InlineSheet.Literal

/-- What may stand between two `quote`s: escaped characters, whatever they are, and bare ones. A bare
line break is allowed between backticks only. -/
inductive Body (quote : Char) : List Char → Prop
  | nil : Body quote []
  | escaped (c : Char) {cs : List Char} (h : Body quote cs) : Body quote ('\\' :: c :: cs)
  | bare (c : Char) {cs : List Char} (hq : c ≠ quote) (hb : c ≠ '\\')
      (hn : c = '\n' → quote = multiLineQuote) (h : Body quote cs) : Body quote (c :: cs)

/-- A literal: a body between two quotes of one kind. -/
def Complete (value : List Char) : Prop :=
  ∃ quote body, isQuote quote = true ∧ Body quote body ∧ value = quote :: (body ++ [quote])

theorem ne_backslash_of_isQuote {quote : Char} (h : isQuote quote = true) : quote ≠ '\\' := by
  rintro rfl
  exact absurd h (by decide)

theorem ne_newline_of_isQuote {quote : Char} (h : isQuote quote = true) : quote ≠ '\n' := by
  rintro rfl
  exact absurd h (by decide)

theorem scanBody_quote (quote : Char) (rest : List Char) :
    scanBody quote (quote :: rest) = (.closed, [quote]) := by
  rw [scanBody.eq_def]
  simp

theorem scanBody_escaped {quote : Char} (hq : quote ≠ '\\') (c : Char) (rest : List Char) :
    scanBody quote ('\\' :: c :: rest) =
      ((scanBody quote rest).1, '\\' :: c :: (scanBody quote rest).2) := by
  rw [scanBody.eq_def]
  simp [hq.symm]

theorem scanBody_bare {quote c : Char} (hq : c ≠ quote) (hb : c ≠ '\\')
    (hn : c = '\n' → quote = multiLineQuote) (rest : List Char) :
    scanBody quote (c :: rest) = ((scanBody quote rest).1, c :: (scanBody quote rest).2) := by
  have hline : ¬ (c = '\n' ∧ quote ≠ multiLineQuote) := fun hl => hl.2 (hn hl.1)
  rw [scanBody.eq_def]
  simp only [if_neg hq, if_neg hb, if_neg hline]

theorem scanBody_backslash {quote : Char} (hq : quote ≠ '\\') :
    scanBody quote ['\\'] = (.inputEnd, ['\\']) := by
  simp [scanBody, hq.symm]

theorem scanBody_newline {quote : Char} (hq : quote ≠ '\n') (hm : quote ≠ multiLineQuote)
    (rest : List Char) : scanBody quote ('\n' :: rest) = (.lineBreak, []) := by
  rw [scanBody.eq_def]
  simp [hq.symm, hm]

/-- A body is passed over, whatever follows it. -/
theorem scanBody_body {quote : Char} (hq : quote ≠ '\\') {body : List Char} (h : Body quote body)
    (cs : List Char) :
    scanBody quote (body ++ cs) = ((scanBody quote cs).1, body ++ (scanBody quote cs).2) := by
  induction h with
  | nil => rfl
  | escaped c _ ih =>
    rw [List.cons_append, List.cons_append, scanBody_escaped hq, ih]
    rfl
  | bare c hc hb hn _ ih =>
    rw [List.cons_append, scanBody_bare hc hb hn, ih]
    rfl

/-- How a text behind an opening quote goes on: after a body comes the closing quote, or a line break
that may not stand there, or the end, perhaps with a backslash before it that has nothing to take
along. The last argument is the text up to there. -/
inductive Course (quote : Char) : List Char → Ending → List Char → Prop
  | closed {body : List Char} (h : Body quote body) (rest : List Char) :
      Course quote (body ++ quote :: rest) .closed (body ++ [quote])
  | lineBreak {body : List Char} (h : Body quote body) (hq : quote ≠ multiLineQuote)
      (rest : List Char) : Course quote (body ++ '\n' :: rest) .lineBreak body
  | inputEnd {body : List Char} (h : Body quote body) : Course quote body .inputEnd body
  | backslash {body : List Char} (h : Body quote body) :
      Course quote (body ++ ['\\']) .inputEnd (body ++ ['\\'])

namespace Course

variable {quote : Char} {cs taken : List Char} {ending : Ending}

theorem escaped (h : Course quote cs ending taken) (c : Char) :
    Course quote ('\\' :: c :: cs) ending ('\\' :: c :: taken) := by
  cases h with
  | closed h rest => exact .closed (.escaped c h) rest
  | lineBreak h hq rest => exact .lineBreak (.escaped c h) hq rest
  | inputEnd h => exact .inputEnd (.escaped c h)
  | backslash h => exact .backslash (.escaped c h)

theorem bare (h : Course quote cs ending taken) {c : Char} (hc : c ≠ quote) (hb : c ≠ '\\')
    (hn : c = '\n' → quote = multiLineQuote) : Course quote (c :: cs) ending (c :: taken) := by
  cases h with
  | closed h rest => exact .closed (.bare c hc hb hn h) rest
  | lineBreak h hq rest => exact .lineBreak (.bare c hc hb hn h) hq rest
  | inputEnd h => exact .inputEnd (.bare c hc hb hn h)
  | backslash h => exact .backslash (.bare c hc hb hn h)

end Course

/-- Reading follows the grammar. -/
theorem course_scanBody (quote : Char) (cs : List Char) :
    Course quote cs (scanBody quote cs).1 (scanBody quote cs).2 := by
  induction cs using scanBody.induct quote with
  | case1 => exact .inputEnd .nil
  | case2 rest =>
    rw [scanBody_quote]
    exact .closed .nil rest
  | case3 hq =>
    rw [scanBody_backslash (Ne.symm hq)]
    exact .backslash .nil
  | case4 c rest _ _ _ hq ih =>
    rw [scanBody_escaped (Ne.symm hq)]
    exact ih.escaped c
  | case5 c rest hq hb hl =>
    obtain ⟨rfl, hm⟩ := hl
    rw [scanBody_newline (Ne.symm hq) hm]
    exact .lineBreak .nil hm rest
  | case6 c rest hq hb hl _ _ _ ih =>
    have hn : c = '\n' → quote = multiLineQuote := fun hc =>
      Decidable.byContradiction fun hm => hl ⟨hc, hm⟩
    rw [scanBody_bare hq hb hn]
    exact ih.bare hq hb hn

/-- The grammar leaves reading no choice. -/
theorem Course.scanBody_eq {quote : Char} (hq : isQuote quote = true) {cs taken : List Char}
    {ending : Ending} (h : Course quote cs ending taken) : scanBody quote cs = (ending, taken) := by
  have hb := ne_backslash_of_isQuote hq
  cases h with
  | closed h rest => rw [scanBody_body hb h, scanBody_quote]
  | lineBreak h hm rest =>
    rw [scanBody_body hb h, scanBody_newline (ne_newline_of_isQuote hq) hm, List.append_nil]
  | inputEnd h =>
    have hs := scanBody_body hb h []
    rwa [List.append_nil, scanBody, List.append_nil] at hs
  | backslash h => rw [scanBody_body hb h, scanBody_backslash hb]

theorem body_of_scanBody {quote : Char} {cs : List Char} (h : (scanBody quote cs).1 = .closed) :
    ∃ body rest, Body quote body ∧ cs = body ++ quote :: rest ∧
      (scanBody quote cs).2 = body ++ [quote] := by
  have hc := course_scanBody quote cs
  rw [h] at hc
  generalize (scanBody quote cs).2 = taken at hc
  cases hc with
  | closed hb rest => exact ⟨_, rest, hb, rfl, rfl⟩

/-- A literal that has to end on its line is read up to the first bare line break. -/
theorem body_of_scanBody_lineBreak {quote : Char} {cs : List Char}
    (h : (scanBody quote cs).1 = .lineBreak) :
    quote ≠ multiLineQuote ∧ Body quote (scanBody quote cs).2 ∧
      ∃ rest, cs = (scanBody quote cs).2 ++ '\n' :: rest := by
  have hc := course_scanBody quote cs
  rw [h] at hc
  generalize (scanBody quote cs).2 = taken at hc ⊢
  cases hc with
  | lineBreak hb hm rest => exact ⟨hm, hb, rest, rfl⟩

/-- Where the input ends first, all of it has been read. -/
theorem scanBody_eq_of_inputEnd {quote : Char} {cs : List Char}
    (h : (scanBody quote cs).1 = .inputEnd) : (scanBody quote cs).2 = cs := by
  have hc := course_scanBody quote cs
  rw [h] at hc
  generalize (scanBody quote cs).2 = taken at hc ⊢
  cases hc with
  | inputEnd | backslash => rfl

theorem scan_append {value : List Char} (h : Complete value) (rest : List Char) :
    scan (value ++ rest) = (.closed, value) := by
  obtain ⟨quote, body, hq, hb, rfl⟩ := h
  have hs := (Course.closed hb rest).scanBody_eq hq
  simp [scan, hs]

theorem complete_of_scan {quote : Char} {cs value : List Char} (hq : isQuote quote = true)
    (h : scan (quote :: cs) = (.closed, value)) : Complete value := by
  simp only [scan, Prod.mk.injEq] at h
  obtain ⟨body, _, hb, _, ht⟩ := body_of_scanBody h.1
  exact ⟨quote, body, hq, hb, by rw [← h.2, ht]⟩

theorem Complete.ne_nil {value : List Char} (h : Complete value) : value ≠ [] := by
  obtain ⟨quote, body, _, _, rfl⟩ := h
  simp

end InlineSheet.Literal

namespace InlineSheet.Comment

/-- A block comment that is closed, by the first star and slash behind its opening. -/
def Block (value : List Char) : Prop :=
  ∃ body, ¬ ['*', '/'] <:+: body ∧ value = '/' :: '*' :: (body ++ ['*', '/'])

theorem scanToClose_cons (c : Char) (rest : List Char) :
    scanToClose (c :: rest) =
      if c = '*' ∧ rest.head? = some '/' then ['*', '/'] else c :: scanToClose rest := by
  rw [scanToClose.eq_def]
  split
  · next he => cases he
  · next he => cases he; rfl
  · next hno he =>
    cases he
    rw [if_neg]
    rintro ⟨rfl, hs⟩
    obtain ⟨tail, rfl⟩ := List.head?_eq_some_iff.mp hs
    exact hno tail rfl rfl

theorem scanToClose_append (body rest : List Char) (h : ¬ ['*', '/'] <:+: body) :
    scanToClose (body ++ '*' :: '/' :: rest) = body ++ ['*', '/'] := by
  induction body with
  | nil => rfl
  | cons c body ih =>
    have htail : ¬ ['*', '/'] <:+: body := fun hi => h (List.infix_cons hi)
    have hfront : ¬ (c = '*' ∧ (body ++ '*' :: '/' :: rest).head? = some '/') := by
      rintro ⟨rfl, hs⟩
      cases body with
      | nil => simp at hs
      | cons e body =>
        obtain rfl : e = '/' := by simpa using hs
        exact h ⟨[], body, rfl⟩
    rw [List.cons_append, scanToClose_cons, if_neg hfront, ih htail, List.cons_append]

/-- All of the text is read, unless a star and a slash come. -/
theorem scanToClose_cases (cs : List Char) :
    scanToClose cs = cs ∨ ∃ body, ¬ ['*', '/'] <:+: body ∧ scanToClose cs = body ++ ['*', '/'] := by
  induction cs with
  | nil => exact .inl rfl
  | cons c rest ih =>
    rw [scanToClose_cons]
    by_cases hc : c = '*' ∧ rest.head? = some '/'
    · exact .inr ⟨[], by simp, by rw [if_pos hc]; rfl⟩
    · rw [if_neg hc]
      rcases ih with ih | ⟨body, hb, ih⟩
      · exact .inl (congrArg (c :: ·) ih)
      · refine .inr ⟨c :: body, fun hi => ?_, congrArg (c :: ·) ih⟩
        rcases List.infix_cons_iff.mp hi with hp | hi
        · obtain ⟨rfl, hslash⟩ := List.cons_prefix_cons.mp hp
          obtain ⟨tail, rfl⟩ := hslash
          obtain ⟨more, hmore⟩ := scanToClose_isPrefix rest
          rw [ih] at hmore
          exact hc ⟨rfl, by rw [← hmore]; rfl⟩
        · exact hb hi

theorem scan_append {value : List Char} (h : Block value) (rest : List Char) :
    scan (value ++ rest) = (.comment, value) := by
  obtain ⟨body, hb, rfl⟩ := h
  simp [scan, scanBlock, scanToClose_append body rest hb]

end InlineSheet.Comment
