import InlineSheet.Proofs.Outcome
import InlineSheet.Proofs.Quotation
import InlineSheet.Proofs.Trimming

/-!
# Literals quoted anew

A single-quoted literal in a stylesheet is quoted anew, because the stylesheet is itself emitted between
single quotes. Between the quotes of a literal every single quote is escaped already, and quoting anew
puts three more backslashes before it, which makes it bare. Main statement: what is quoted anew stands
between single quotes as one literal just if no single quote stood in it; then, and only then, an odd
number of backslashes stands before each of its quotes.
-/
namespace InlineSheet

namespace Literal

theorem Body.append {quote : Char} {cs ds : List Char} (hc : Body quote cs) (hd : Body quote ds) :
    Body quote (cs ++ ds) := by
  induction hc with
  | nil => exact hd
  | escaped c _ ih => exact .escaped c ih
  | bare c hq hb hn _ ih => exact .bare c hq hb hn ih

/-- A body does not end in a backslash that escapes. -/
theorem Body.even_backslashes {cs : List Char} (h : Body '\'' cs) : backslashes cs % 2 = 0 := by
  have hp := (Place.body_iff cs).mp h
  exact (body_iff_of_after_ne (by rw [hp]; decide)).mp h

/-- An odd number of backslashes stands before each single quote. -/
def QuotesEscaped (cs : List Char) : Prop :=
  ∀ before behind, cs = before ++ '\'' :: behind → backslashes before % 2 = 1

theorem Body.quotesEscaped {cs : List Char} (h : Body '\'' cs) : QuotesEscaped cs := by
  intro before behind he
  rw [Place.body_iff, he, Place.after_append] at h
  cases hp : Place.after .inside before with
  | inside => simp [hp, Place.next] at h
  | escaped => exact (Place.after_inside_eq_escaped (by rw [hp]; decide)).mp hp
  | outside => simp [hp, Place.next] at h

/-- A body is no more one once a bare quote is put behind it. -/
theorem Body.not_body {cs behind : List Char} (h : Body '\'' cs) :
    ¬ Body '\'' (cs ++ '\'' :: behind) := by
  intro hb
  have hodd := hb.quotesEscaped cs behind rfl
  have heven := h.even_backslashes
  omega

theorem flatMap_escapeQuote_of_not_mem {cs : List Char} (h : '\'' ∉ cs) :
    cs.flatMap escapeQuote = cs := by
  induction cs with
  | nil => rfl
  | cons c cs ih =>
    obtain ⟨hc, hcs⟩ := not_or.mp (List.mem_cons.not.mp h)
    rw [List.flatMap_cons, ih hcs, escapeQuote_of_ne (Ne.symm hc), List.singleton_append]

/-- The first single quote in a body is bare once it is escaped anew: with the backslash that it had,
there are four before it. -/
theorem Body.exists_bare_quote {cs : List Char} (h : Body '\'' cs) (hmem : '\'' ∈ cs) :
    ∃ before behind, Body '\'' before ∧ cs.flatMap escapeQuote = before ++ '\'' :: behind := by
  induction h with
  | nil => cases hmem
  | @escaped c cs _ ih =>
    by_cases hc : c = '\''
    · subst hc
      exact ⟨['\\', '\\', '\\', '\\'], cs.flatMap escapeQuote, .escaped _ (.escaped _ .nil), rfl⟩
    · have htail : '\'' ∈ cs := by simpa [Ne.symm hc] using hmem
      obtain ⟨before, behind, hb, he⟩ := ih htail
      refine ⟨'\\' :: c :: before, behind, .escaped c hb, ?_⟩
      simp [he, escapeQuote, hc]
  | @bare c cs hq hb hn _ ih =>
    have htail : '\'' ∈ cs := by simpa [Ne.symm hq] using hmem
    obtain ⟨before, behind, hbody, he⟩ := ih htail
    refine ⟨c :: before, behind, .bare c hq hb hn hbody, ?_⟩
    simp [he, escapeQuote_of_ne hq]

theorem Complete.body_inner {value : List Char} (h : Complete value)
    (hq : value.head? = some '\'') : Body '\'' (inner value) := by
  obtain ⟨quote, body, -, hb, rfl⟩ := h
  obtain rfl : quote = '\'' := by simpa using hq
  simpa [inner] using hb

theorem body_requote {value : List Char} (h : Body '\'' (inner value)) (hmem : '\'' ∉ inner value) :
    Body '\'' (requote value) := by
  have hmark : Body '\'' ['\\', '\''] := .escaped _ .nil
  rw [requote, flatMap_escapeQuote_of_not_mem hmem]
  exact (hmark.append h).append hmark

theorem exists_bare_quote_requote {value : List Char} (h : Body '\'' (inner value))
    (hmem : '\'' ∈ inner value) :
    ∃ before behind, Body '\'' before ∧ requote value = before ++ '\'' :: behind := by
  obtain ⟨before, behind, hb, he⟩ := h.exists_bare_quote hmem
  refine ⟨'\\' :: '\'' :: before, behind ++ ['\\', '\''], .escaped _ hb, ?_⟩
  simp [requote, he]

theorem body_requote_iff {value : List Char} (h : Body '\'' (inner value)) :
    Body '\'' (requote value) ↔ '\'' ∉ inner value := by
  refine ⟨fun hb hmem => ?_, body_requote h⟩
  obtain ⟨before, behind, hbefore, he⟩ := exists_bare_quote_requote h hmem
  rw [he] at hb
  exact hbefore.not_body hb

theorem quotesEscaped_requote_iff {value : List Char} (h : Body '\'' (inner value)) :
    QuotesEscaped (requote value) ↔ '\'' ∉ inner value := by
  refine ⟨fun hq hmem => ?_, fun hmem => (body_requote h hmem).quotesEscaped⟩
  obtain ⟨before, behind, hbefore, he⟩ := exists_bare_quote_requote h hmem
  have hodd := hq before behind he
  have heven := hbefore.even_backslashes
  omega

end Literal

namespace Machine

/-- A token that reading a literal has handed on is a literal, unless nothing was left to read. -/
theorem complete_of_scanString {d : Delimiters} {m : Machine} {t : Token}
    (h : (m.scanString d).machine.trace = m.trace.push (.token m.top.kind t))
    (hq : t.value.head? = some '\'') : t.kind = .string ∧ Literal.Complete t.value := by
  cases hs : Literal.scan m.cursor.rest with
  | mk ending taken =>
    by_cases hc : ending = .closed
    · subst hc
      rw [scanString, hs, deliver_trace] at h
      obtain ⟨-, ht⟩ := Event.token.inj (Array.push_eq_push.mp h).1
      subst ht
      refine ⟨rfl, ?_⟩
      cases hr : m.cursor.rest with
      | nil =>
        rw [hr] at hs
        cases hs
        cases hq
      | cons c rest =>
        rw [hr] at hs
        obtain rfl : c = '\'' := Option.some.inj ((congrArg (·.2.head?) hs).trans hq)
        exact Literal.complete_of_scan (by decide) hs
    · rw [scanString_broken d hs hc] at h
      have hsize := congrArg Array.size h
      simp [skip] at hsize

end Machine

/-- What a stylesheet emits that holds one single-quoted literal and nothing else. -/
theorem Region.render_requote (d : Delimiters) (names : Runtime) {t : Token}
    (hk : t.kind = .string) (hq : t.value.head? = some '\'') :
    (Region.accept d { kind := .sheet } t).render names =
      '\'' :: (Literal.requote t.value ++ ['\'']) := by
  have htext : (Region.accept d { kind := .sheet } t).content.toList = Literal.requote t.value := by
    simp [Region.accept_toList, Region.added, hk, Region.sheetLiteral, hq]
  simp only [Region.render, Region.accept_kind, htext, (Literal.solid_requote t.value).trim_eq]
  rfl

/-- A single-quoted literal that is quoted anew stands between single quotes as one literal just if it
holds no single quote. -/
theorem Machine.readsAsLiteral_requote_iff (d : Delimiters) (m : Machine) (t : Token)
    (hdelivered : (m.scanString d).machine.trace = m.trace.push (.token m.top.kind t))
    (hquote : t.value.head? = some '\'') :
    (∀ names, (Region.accept d { kind := .sheet } t).render names =
      '\'' :: (Literal.requote t.value ++ ['\''])) ∧
    (ReadsAsLiteral ('\'' :: (Literal.requote t.value ++ ['\''])) ↔ '\'' ∉ Literal.inner t.value) ∧
    (Literal.QuotesEscaped (Literal.requote t.value) ↔ '\'' ∉ Literal.inner t.value) := by
  obtain ⟨hk, hcomplete⟩ := complete_of_scanString hdelivered hquote
  have hbody := hcomplete.body_inner hquote
  refine ⟨fun names => Region.render_requote d names hk hquote, ?_,
    Literal.quotesEscaped_requote_iff hbody⟩
  rw [readsAsLiteral_iff (by decide), Literal.complete_iff_body _ (by decide)]
  exact Literal.body_requote_iff hbody

/-- Two backslashes at the end of a literal escape nothing behind them. -/
theorem Machine.readsAsLiteral_requote_iff_backslash :
    ((Machine.start .standard "'\\\\'x".toList 1).scanString {}).machine.trace =
      #[.token .root { kind := .string, value := ['\'', '\\', '\\', '\''] }] ∧
    ReadsAsLiteral ('\'' :: (Literal.requote ['\'', '\\', '\\', '\''] ++ ['\''])) := by
  refine (and_iff_left_of_imp fun hdelivered => ?_).mpr (by decide)
  exact (Machine.readsAsLiteral_requote_iff {} _ _ hdelivered rfl).2.1.mpr (by decide)

/-- An escaped quote ends the literal that the stylesheet is emitted as. -/
theorem Machine.not_readsAsLiteral_requote :
    ((Machine.start .standard "'a\\'b'".toList 1).scanString {}).machine.trace =
      #[.token .root { kind := .string, value := "'a\\'b'".toList }] ∧
    InlineSheet.transpile .standard "page" "<<'a\\'b'>>" =
      .ok "sheath.css.evaluate('\\'a\\\\\\\\'b\\'')" ∧
    '\'' :: (Literal.requote "'a\\'b'".toList ++ ['\'']) = "'\\'a\\\\\\\\'b\\''".toList ∧
    ¬ ReadsAsLiteral "'\\'a\\\\\\\\'b\\''".toList ∧
    ¬ Literal.QuotesEscaped (Literal.requote "'a\\'b'".toList) := by
  refine ⟨by decide +kernel, by decide +kernel, by decide +kernel, fun h => ?_, fun h => ?_⟩
  · obtain ⟨-, hrest, -⟩ := h {} 1
    exact absurd hrest (by decide +kernel)
  · have hodd := h "\\'a\\\\\\\\".toList "b\\'".toList (by decide +kernel)
    exact absurd hodd (by decide +kernel)

end InlineSheet
