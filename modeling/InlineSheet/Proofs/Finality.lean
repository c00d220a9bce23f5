import InlineSheet.Proofs.Seam

/-!
# A line break in a literal is final

A literal that has to end on its line is rejected at the first bare line break, and nothing behind that
break has been looked at. Main statement: such a rejection stays the same in every respect, whatever
follows the source, and it is there already when the source ends with the line break. The stylesheet
delimiters are to have no line break, since one that reaches over the break could open or close a region
before the literal. A literal that the end of the input cuts off is not spoken of: more input may close
it.
-/
namespace InlineSheet

/-- Behind a line break that no delimiter has, no look ahead tells one text from another. -/
theorem Delimiters.blends_newline {d : Delimiters} (hopen : '\n' ∉ d.sheetOpen)
    (hclose : '\n' ∉ d.sheetClose) {cs : List Char} (hcs : cs ≠ []) (old new : List Char) :
    d.Blends (cs ++ '\n' :: old) (cs ++ '\n' :: new) := by
  obtain ⟨c, cs, rfl⟩ := List.exists_cons_of_ne_nil hcs
  refine ⟨fun hline => hline, fun hs hb => ⟨hs, hb⟩, nofun, ?_⟩
  intro mark hmark front _ hp
  have hfree : '\n' ∉ mark := by
    rcases hmark with rfl | rfl
    · exact hopen
    · exact hclose
  rw [← List.append_assoc] at hp ⊢
  exact (isPrefix_of_not_mem hp hfree).trans (List.prefix_append _ _)

namespace Machine

variable {d : Dialect} {m : Machine} {pre taken behind : List Char} {line : Int}

/-- Whatever stands behind the line break, the run stops in front of it in the same way. -/
theorem Reaches.run_lineBreak (h : Reaches (begun d (pre ++ (taken ++ '\n' :: behind)) line) m)
    (hd : d.Progressive) (hopen : '\n' ∉ d.sheetOpen) (hclose : '\n' ∉ d.sheetClose)
    (hr : m.cursor.rest = taken ++ '\n' :: behind)
    (hl : lexeme m.cursor.rest = .broken .lineBreak taken) (other : List Char) :
    (begun d (pre ++ (taken ++ '\n' :: other)) line).run =
      { machine := (m.facing (taken ++ '\n' :: other)).skip taken.length,
        failure := some (.multiLineString (m.cursor.line + Cursor.breaks taken)) } := by
  obtain ⟨-, quote, body, _, hq, hm, hb, rfl, -⟩ | ⟨he, -⟩ := broken_cases hl
  · have hstill : ∀ c, lexeme (quote :: body ++ '\n' :: behind) = .plain c →
        d.sheetOpen ≠ [] ∧ d.sheetClose ≠ [] := by
      intro c hplain
      rw [lexeme_lineBreak hq hm hb] at hplain
      cases hplain
    have hpath := h.facing_begun
      (Delimiters.blends_newline hopen hclose (List.cons_ne_nil quote body) behind other) hstill hr
    have hstops := stops_of_broken (m := m.facing (quote :: body ++ '\n' :: other))
      (lexeme_lineBreak hq hm hb other)
    have hline : ((m.facing (quote :: body ++ '\n' :: other)).cursor.skip
        (quote :: body).length).line = m.cursor.line + Cursor.breaks (quote :: body) :=
      (Cursor.skip_append rfl).2
    rw [hline] at hstops
    exact run_eq hd (begun_nested _ _ _) hpath hstops
  · cases he

end Machine

namespace Transpiler

open Machine

/-- Two runs that answered the same and handed out and logged the same on the way. -/
structure Alike (p q : Transpiler × Except Diagnostic String) : Prop where
  answer : p.2 = q.2
  tokens : p.1.tokens = q.1.tokens
  messages : p.1.messages = q.1.messages

theorem alike_of_run {d : Dialect} {file : String} {line : Int} {a b : String}
    (hfailure : (begun d a.toList line).run.outcome d = (begun d b.toList line).run.outcome d)
    (htrace : (begun d a.toList line).run.machine.trace =
      (begun d b.toList line).run.machine.trace) :
    Alike (new d file line a).run (new d file line b).run := by
  obtain ⟨hma, haa⟩ := run_new d file line a
  obtain ⟨hmb, hab⟩ := run_new d file line b
  have hevents : (new d file line a).run.1.machine.trace = (new d file line b).run.1.machine.trace := by
    rw [hma, hmb, htrace]
  exact ⟨by rw [haa, hab, hfailure], by rw [tokens, tokens, hevents],
    congrArg (fun trace => trace.toList.filterMap (Event.message? file)) hevents⟩

/-- A source that is rejected for a line break in a literal has been read up to that break. -/
theorem exists_lineBreak {d : Dialect} (hd : d.Progressive) {file : String} {line : Int} {a : String}
    {errorLine : Option Int} {errorFile : Option String}
    (h : (new d file line a).run.2 = .error
      (.located (.unterminatedString "Unexpected multi-line string") errorLine errorFile)) :
    ∃ m pre taken behind, a.toList = pre ++ (taken ++ '\n' :: behind) ∧
      Reaches (begun d (pre ++ (taken ++ '\n' :: behind)) line) m ∧
      m.cursor.rest = taken ++ '\n' :: behind ∧
      lexeme m.cursor.rest = .broken .lineBreak taken := by
  obtain ⟨m, hp, hends⟩ := run_begun_stops hd a.toList line
  obtain ⟨pre, hpre⟩ := hp.isSuffix (begun_nested _ _ _)
  change pre ++ m.cursor.rest = a.toList at hpre
  rw [(run_new d file line a).2] at h
  rcases hends with ⟨-, he⟩ | ⟨ending, taken, hl, he⟩ <;> rw [he] at h
  · change answer d file (m.result d) = _ at h
    rw [result] at h
    split at h <;> cases h
  · obtain ⟨rfl, quote, body, behind, -, -, -, -, hr⟩ | ⟨rfl, -⟩ := broken_cases hl
    · rw [hr] at hpre
      rw [← hpre] at hp
      exact ⟨m, pre, taken, behind, hpre.symm, hp, hr, hl⟩
    · simp [answer, Progress.outcome, Literal.Ending.failure, Failure.report] at h

/-- A rejection for a line break in a literal stays the same whatever is appended, and the part of the
source up to that line break is rejected in the same way. -/
theorem run_append_rejected (d : Dialect) (hd : d.Progressive) (hopen : '\n' ∉ d.sheetOpen)
    (hclose : '\n' ∉ d.sheetClose) (file : String) (line : Int) (a : String)
    (errorLine : Option Int) (errorFile : Option String)
    (h : (new d file line a).run.2 = .error
      (.located (.unterminatedString "Unexpected multi-line string") errorLine errorFile)) :
    (∀ b, Alike (new d file line (a ++ b)).run (new d file line a).run) ∧
    ∃ before behind, a = before ++ "\n" ++ behind ∧
      (new d file line a).run.1.machine.cursor.rest = '\n' :: behind.toList ∧
      Alike (new d file line (before ++ "\n")).run (new d file line a).run := by
  obtain ⟨m, pre, taken, behind, ha, hp, hr, hl⟩ := exists_lineBreak hd h
  have hrun (other : List Char) := hp.run_lineBreak hd hopen hclose hr hl other
  have hsame (source : String) (other : List Char)
      (hs : source.toList = pre ++ (taken ++ '\n' :: other)) :
      Alike (new d file line source).run (new d file line a).run := by
    apply alike_of_run
    · rw [hs, ha, hrun, hrun]
      rfl
    · rw [hs, ha, hrun, hrun]
      rfl
  refine ⟨fun b => hsame _ (behind ++ b.toList) (by simp [ha]), String.ofList (pre ++ taken),
    String.ofList behind, ?_, ?_, hsame _ [] (by simp)⟩
  · rw [← String.toList_inj, ha]
    simp
  · rw [(run_new d file line a).1, ha, hrun]
    simp [Machine.skip, facing, Cursor.facing, Cursor.skip]

/-- The quote that would close the literal comes too late. -/
theorem run_append_rejected_late :
    (new .standard "page" 1 ("<<['a\nb" ++ "']>>")).run.2 =
      .error (.located (.unterminatedString "Unexpected multi-line string") (some 1)
        (some "page")) := by
  have h : (new .standard "page" 1 "<<['a\nb").run.2 =
      .error (.located (.unterminatedString "Unexpected multi-line string") (some 1)
        (some "page")) := by
    decide +kernel
  have hfinal := run_append_rejected .standard (by decide) (by decide) (by decide) "page" 1 _ _ _ h
  rw [(hfinal.1 "']>>").answer, h]

end Transpiler
end InlineSheet
