import InlineSheet.Proofs.Seam
import InlineSheet.Proofs.Variation

/-!
# Literals and comments are opaque

A run takes a complete literal or a closed block comment as a whole, whatever delimiters, brackets
and line breaks are in it. Main statement: where one such text is put in the place of another of its
kind, the run opens and closes the same regions and hands out the same tokens otherwise, and its
output has the piece of the one where it had the piece of the other. What comes behind may fail; it
then fails in the same way, some lines further up or down. The stylesheet delimiters are to have
none of the characters with which literals and comments begin, since a delimiter in front could
reach into one.
-/
namespace InlineSheet

/-- The texts that a run takes as a whole: literals and block comments, if they are closed. -/
def Token.Kind.Whole : Token.Kind → List Char → Prop
  | .string, value => Literal.Complete value
  | .comment, value => Comment.Block value
  | _, _ => False

/-- What a literal or a comment becomes in a region. -/
def Token.Kind.piece (receiver : Region.Kind) : Token.Kind → List Char → List Char
  | .comment, value => if receiver = .root then value else []
  | _, value =>
    if receiver = .sheet ∧ value.head? = some '\'' then Literal.requote value else value

namespace Token.Kind.Whole

variable {kind : Token.Kind} {x y : List Char}

theorem lexeme_append (h : kind.Whole x) (post : List Char) :
    lexeme (x ++ post) = .token kind x := by
  cases kind with
  | string => exact lexeme_literal h post
  | comment => exact lexeme_block h post
  | whitespace | text => exact h.elim

/-- Texts of one kind begin alike, as far as what stands before them is concerned. -/
theorem blends (hx : kind.Whole x) (hy : kind.Whole y) {d : Delimiters}
    (hopen : ∀ c ∈ d.sheetOpen, Literal.isQuote c = false ∧ c ≠ '/')
    (hclose : ∀ c ∈ d.sheetClose, Literal.isQuote c = false ∧ c ≠ '/') (post : List Char) :
    d.Blends (x ++ post) (y ++ post) := by
  cases kind with
  | string =>
    obtain ⟨quote, body, hq, -, rfl⟩ := hx
    obtain ⟨quote', body', hq', -, rfl⟩ := hy
    have hfree {mark : List Char} (hmark : ∀ c ∈ mark, Literal.isQuote c = false ∧ c ≠ '/') :
        quote' ∉ mark := by
      intro hmem
      rw [(hmark quote' hmem).1] at hq'
      cases hq'
    refine Delimiters.blends_cons ?_ ?_ (hfree hopen) (hfree hclose) _ _
    · rintro rfl
      exact absurd hq (by decide)
    · intro _ _
      constructor <;> rintro rfl <;> exact absurd hq' (by decide)
  | comment =>
    obtain ⟨body, -, rfl⟩ := hx
    obtain ⟨body', -, rfl⟩ := hy
    exact Delimiters.blends_cons id (fun hs hb => ⟨hs, hb⟩) (fun hmem => (hopen _ hmem).2 rfl)
      (fun hmem => (hclose _ hmem).2 rfl) _ _
  | whitespace | text => exact hx.elim

theorem solid_piece (h : Literal.Complete x) (receiver : Region.Kind) :
    Text.Solid (Token.Kind.string.piece receiver x) := by
  simp only [piece]
  split
  · exact Literal.solid_requote x
  · exact h.solid

theorem exchangeable_piece (hx : kind.Whole x) (hy : kind.Whole y) {receiver : Region.Kind}
    (hk : receiver ≠ .root) :
    Text.Exchangeable (kind.piece receiver x) (kind.piece receiver y) := by
  cases kind with
  | string => exact .inr ⟨solid_piece hx receiver, solid_piece hy receiver⟩
  | comment => exact .inl ⟨if_neg hk, if_neg hk⟩
  | whitespace | text => exact hx.elim

theorem accept_eq (h : kind.Whole x) (d : Delimiters) (r : Region) (line : Int) :
    r.accept d { kind, value := x, line } = r.write (kind.piece r.kind x) := by
  cases kind with
  | string => cases hk : r.kind <;> simp [Region.accept, piece, hk, Region.sheetLiteral]
  | comment =>
    have hnil : r.write [] = r := rfl
    cases hk : r.kind <;> simp [Region.accept, piece, hk, hnil]
  | whitespace | text => exact h.elim

end Token.Kind.Whole

namespace Machine

variable {d : Dialect} {m : Machine} {kind : Token.Kind} {x y post : List Char}

/-- Behind the one text a run stands as it does behind the other, but for the pieces and the
line. -/
theorem variant_whole (hx : kind.Whole x) (hy : kind.Whole y) (hr : m.cursor.rest = x ++ post) :
    Variant (Cursor.breaks y - Cursor.breaks x) none (kind.piece m.top.kind x)
      (kind.piece m.top.kind y) (m.outlines ++ [.token m.top.kind kind x])
      (m.outlines ++ [.token m.top.kind kind y]) (m.took d.toDelimiters kind x)
      ((m.facing (y ++ post)).took d.toDelimiters kind y) := by
  have hfacing : (m.facing (y ++ post)).cursor.rest = y ++ post := rfl
  obtain ⟨hrest, hline⟩ := Cursor.skip_append hr
  obtain ⟨hrest', hline'⟩ := Cursor.skip_append hfacing
  have hregion : Region.Variant none (kind.piece m.top.kind x) (kind.piece m.top.kind y)
      (m.top.accept d.toDelimiters { kind, value := x, line := m.cursor.line })
      (m.top.accept d.toDelimiters { kind, value := y, line := m.cursor.line }) := by
    rw [hx.accept_eq, hy.accept_eq]
    refine ⟨rfl, rfl, fun hk => ⟨rfl, rfl, hx.exchangeable_piece hy hk⟩, ?_⟩
    exact ⟨m.top.content.toList, [], nofun, by simp, by simp⟩
  refine ⟨hrest'.trans hrest.symm, ?_, [], ?_, ?_, .holder hregion m.below⟩
  · change (_ : Int) = (m.cursor.skip x.length).line + _
    rw [hline]
    refine hline'.trans ?_
    change m.cursor.line + _ = _
    omega
  · rw [took_outlines, List.append_nil]
  · rw [took_outlines, List.append_nil]
    rfl

end Machine

/-- A literal or a block comment can be exchanged for another one, and the run does the same. -/
theorem Transpiler.run_exchange (d : Dialect) (hd : d.Progressive)
    (hopen : ∀ c ∈ d.sheetOpen, Literal.isQuote c = false ∧ c ≠ '/')
    (hclose : ∀ c ∈ d.sheetClose, Literal.isQuote c = false ∧ c ≠ '/') (file : String)
    (line : Int) (pre post : List Char) (kind : Token.Kind) (x y : List Char) (hx : kind.Whole x)
    (hy : kind.Whole y) (m : Machine)
    (hm : Machine.Reaches (Machine.begun d (pre ++ (x ++ post)) line) m)
    (hrest : m.cursor.rest = x ++ post) :
    ∃ after,
      (new d file line (String.ofList (pre ++ (x ++ post)))).run.1.machine.outlines =
        m.outlines ++ .token m.top.kind kind x :: after ∧
      (new d file line (String.ofList (pre ++ (y ++ post)))).run.1.machine.outlines =
        m.outlines ++ .token m.top.kind kind y :: after ∧
      ((∃ front back,
        (new d file line (String.ofList (pre ++ (x ++ post)))).run.2 =
          .ok (String.ofList (front ++ kind.piece m.top.kind x ++ back)) ∧
        (new d file line (String.ofList (pre ++ (y ++ post)))).run.2 =
          .ok (String.ofList (front ++ kind.piece m.top.kind y ++ back))) ∨
      ∃ diagnostic diagnostic',
        (new d file line (String.ofList (pre ++ (x ++ post)))).run.2 = .error diagnostic ∧
        (new d file line (String.ofList (pre ++ (y ++ post)))).run.2 = .error diagnostic' ∧
        diagnostic'.category? = diagnostic.category? ∧
        diagnostic' = diagnostic.moved (Cursor.breaks y - Cursor.breaks x)
          (if Outline.openSince after = 0 then 0 else Cursor.breaks y - Cursor.breaks x)) := by
  have hplain : ∀ c, lexeme (x ++ post) = .plain c → d.sheetOpen ≠ [] ∧ d.sheetClose ≠ [] := by
    intro c hl
    rw [hx.lexeme_append] at hl
    cases hl
  have hpath : Machine.Reaches (Machine.begun d (pre ++ (x ++ post)) line)
      (m.took d.toDelimiters kind x) :=
    hm.took (Machine.begun_nested _ _ _) (by rw [hrest]; exact hx.lexeme_append post)
  have hpath' : Machine.Reaches (Machine.begun d (pre ++ (y ++ post)) line)
      ((m.facing (y ++ post)).took d.toDelimiters kind y) :=
    (hm.facing_begun (hx.blends hy hopen hclose post) hplain hrest).took
      (Machine.begun_nested _ _ _) (hy.lexeme_append post)
  obtain ⟨after, hos, hos', hends⟩ :=
    run_variant hd hpath hpath' (Machine.variant_whole hx hy hrest) file
  refine ⟨after, hos.trans (List.append_assoc _ _ _), hos'.trans (List.append_assoc _ _ _), ?_⟩
  rcases hends with ⟨front, back, -, ho, ho'⟩ | ⟨diagnostic, ho, ho'⟩
  · exact .inl ⟨front, back, ho, ho'⟩
  · refine .inr ⟨diagnostic, _, ho, ho', Diagnostic.category?_moved _ _ _, ?_⟩
    simp

/-- A closing delimiter, a bracket and an escaped quote come into the literal, and the stylesheet
ends where it did. -/
theorem Transpiler.run_exchange_delimiters :
    Token.Kind.string.Whole "\"a\"".toList ∧ Token.Kind.string.Whole "'>>[\\''".toList ∧
    ∃ m, Machine.Reaches
        (Machine.begun .standard ("<<".toList ++ ("\"a\"".toList ++ ">>".toList)) 1) m ∧
      m.cursor.rest = "\"a\"".toList ++ ">>".toList ∧
      (new .standard "page" 1 (String.ofList
          ("<<".toList ++ ("'>>[\\''".toList ++ ">>".toList)))).run.1.machine.outlines =
        [.opened .sheet 1, .token .sheet .string "'>>[\\''".toList, .closed .sheet] := by
  have hscan : Literal.scan ('"' :: "a\"".toList) = (.closed, "\"a\"".toList) := by
    decide +kernel
  have hscan' : Literal.scan ('\'' :: ">>[\\''".toList) = (.closed, "'>>[\\''".toList) := by
    decide +kernel
  have hx : Token.Kind.string.Whole "\"a\"".toList := Literal.complete_of_scan (by decide) hscan
  have hy : Token.Kind.string.Whole "'>>[\\''".toList := Literal.complete_of_scan (by decide) hscan'
  have hreach := Machine.reaches_runFor (n := 1)
    (Machine.begun_nested .standard ("<<".toList ++ ("\"a\"".toList ++ ">>".toList)) 1)
    (by decide +kernel)
  have hrest : ((Machine.begun .standard ("<<".toList ++ ("\"a\"".toList ++ ">>".toList)) 1).runFor
      1).machine.cursor.rest = "\"a\"".toList ++ ">>".toList := by decide +kernel
  have hbefore : ((Machine.begun .standard
      ("<<".toList ++ ("\"a\"".toList ++ ">>".toList)) 1).runFor 1).machine.outlines =
      [.opened .sheet 1] := by decide +kernel
  have hkind : ((Machine.begun .standard ("<<".toList ++ ("\"a\"".toList ++ ">>".toList)) 1).runFor
      1).machine.top.kind = .sheet := by decide +kernel
  have hplain : (new .standard "page" 1 (String.ofList
      ("<<".toList ++ ("\"a\"".toList ++ ">>".toList)))).run.1.machine.outlines =
      [.opened .sheet 1, .token .sheet .string "\"a\"".toList, .closed .sheet] := by
    decide +kernel
  have hopen : ∀ c ∈ Dialect.standard.sheetOpen, Literal.isQuote c = false ∧ c ≠ '/' := by
    intro c hc
    obtain rfl : c = '<' := by simpa [Dialect.standard] using hc
    decide
  have hclose : ∀ c ∈ Dialect.standard.sheetClose, Literal.isQuote c = false ∧ c ≠ '/' := by
    intro c hc
    obtain rfl : c = '>' := by simpa [Dialect.standard] using hc
    decide
  obtain ⟨after, hos, hos', -⟩ := run_exchange .standard (by decide) hopen hclose "page" 1 _ _
    .string _ _ hx hy _ hreach hrest
  rw [hplain, hbefore, hkind] at hos
  rw [hbefore, hkind] at hos'
  obtain rfl : after = [.closed .sheet] := by simpa using hos.symm
  exact ⟨hx, hy, _, hreach, hrest, hos'⟩

end InlineSheet
