import InlineSheet.Proofs.Layout
import InlineSheet.Proofs.Naming
import InlineSheet.Proofs.OpenRegions

/-!
# The lines that are reported

`lineAfter` counts line feeds in a text and knows nothing of cursors. Main statement: every line in
the events of a run, in its open regions and in its failure is the one that this count gives for the
part of the source in front of the reported place. A token stands where it begins, a region behind
the text that opens it, a refused line break where it breaks, and all other failures at the end of
the source. The output does not depend on the line on which the source begins.
-/
namespace InlineSheet

/-- The line of the place behind `text`, which begins on `line`. -/
def lineAfter (line : Int) (text : List Char) : Int := line + text.count '\n'

theorem lineAfter_append (line : Int) (front back : List Char) :
    lineAfter line (front ++ back) = lineAfter line front + Cursor.breaks back := by
  simp [lineAfter, Cursor.breaks, Int.add_assoc]

/-- Of all characters only the line feed begins a line. -/
theorem Cursor.line_skip_one {c : Cursor} {ch : Char} {rest : List Char} (h : c.rest = ch :: rest) :
    (c.skip 1).line = if ch = '\n' then c.line + 1 else c.line := by
  by_cases hc : ch = '\n' <;> simp [skip, breaks, h, hc]

theorem Cursor.line_skip_isPrefix {c : Cursor} {line : Int} {before value : List Char}
    (hl : c.line = lineAfter line before) (hv : value <+: c.rest) :
    (c.skip value.length).line = lineAfter line (before ++ value) := by
  rw [(Cursor.skip_append (Cursor.rest_eq_append_skip hv)).2, hl, lineAfter_append]

/-- The lines in an event are right, if `before` lies in front of its part of the source. -/
def Event.Located (d : Delimiters) (line : Int) (before : List Char) : Event → Prop
  | .token _ t => t.line = lineAfter line before
  | .opened child _ => child.startLine = lineAfter line (before ++ child.kind.opener d)
  | .closed child l => l = lineAfter line (before ++ child.kind.closer d)

namespace Machine

/-- All that has been read. -/
def passed (d : Delimiters) (m : Machine) : List Char := m.trace.toList.flatMap (Event.source d)

/-- Each open region begins on the line of the place where its text begins. -/
def Placed (d : Dialect) (source : List Char) (line : Int) (m : Machine) : Prop :=
  List.Forall₂ (fun r n => r.startLine = lineAfter line (source.take n)) m.stack
    (m.openings d.toDelimiters ++ [0])

/-- The lines in the events and in the open regions are right. -/
structure Lined (d : Dialect) (source : List Char) (line : Int) (m : Machine) : Prop where
  events : ∀ before e after, m.trace.toList = before ++ e :: after →
    e.Located d.toDelimiters line (before.flatMap (Event.source d.toDelimiters))
  regions : m.Placed d source line

variable {d : Dialect} {m m' : Machine} {source : List Char} {line : Int}

theorem openings_concat (d : Delimiters) {o : Outline} (h : m'.outlines = m.outlines ++ [o]) :
    m'.openings d = (Outline.locate d ((m.passed d).length, m.openings d) o).2 := by
  obtain ⟨newer, older, hfold, -⟩ := Outline.foldl_locate d m.outlines 0 []
  rw [flatMap_outlines, Nat.zero_add] at hfold
  have hplace : m.outlines.foldl (Outline.locate d) (0, []) =
      ((m.passed d).length, m.openings d) := by
    rw [openings, hfold]
    rfl
  rw [openings, h, List.foldl_append, hplace]
  rfl

theorem Reaches.source_eq (h : Reaches (begun d source line) m) :
    source = m.passed d.toDelimiters ++ m.cursor.rest :=
  h.traced.2.partition.symm

theorem Reaches.line_eq_lineAfter (h : Reaches (begun d source line) m) :
    m.cursor.line = lineAfter line (m.passed d.toDelimiters) := by
  have hs := h.source_eq
  rw [hs] at h
  exact h.line_eq rfl

theorem lined_begun (d : Dialect) (source : List Char) (line : Int) :
    Lined d source line (begun d source line) where
  events := by
    intro before e after he
    simp [begun, start] at he
  regions := by
    refine .cons ?_ .nil
    simp [lineAfter, begun, start]

/-- The lines of an event are those of the places before it and behind its part of the source. -/
theorem Move.located (h : Move d m m') {before : List Char}
    (hl : m.cursor.line = lineAfter line before) :
    ∃ e, m'.trace = m.trace.push e ∧ e.Located d.toDelimiters line before := by
  cases h with
  | token kind value _ => exact ⟨_, rfl, hl⟩
  | enter c _ ho =>
    exact ⟨_, rfl, Cursor.line_skip_isPrefix hl (List.isPrefixOf_iff_prefix.mp ho)⟩
  | leave c _ ho he parent below hb =>
    exact ⟨_, rfl, Cursor.line_skip_isPrefix hl (List.isPrefixOf_iff_prefix.mp he.2.1)⟩
  | text c _ ho he => exact ⟨_, rfl, hl⟩

theorem Placed.took (h : m.Placed d source line) (kind : Token.Kind) (value : List Char) :
    (m.took d.toDelimiters kind value).Placed d source line := by
  rw [Placed, (took_openings d.toDelimiters m kind value).1]
  obtain ⟨n, ns, htop, hbelow, hns⟩ := List.forall₂_cons_left_iff.mp h
  rw [hns]
  refine .cons ?_ hbelow
  rw [← htop]
  exact Region.accept_startLine _ _ _

/-- A region begins where the text that opens it ends. -/
theorem Placed.entered (h : m.Placed d source line) (hm : Reaches (begun d source line) m)
    (ho : m.cursor.startsWith (m.top.childOpener d.toDelimiters) = true) :
    (m.entered d.toDelimiters).Placed d source line := by
  have hopener : m.top.childOpener d.toDelimiters <+: m.cursor.rest :=
    List.isPrefixOf_iff_prefix.mp ho
  have houtlines : (m.entered d.toDelimiters).outlines =
      m.outlines ++ [.opened m.top.kind.child (m.depth + 1)] :=
    outlines_push (e := .opened (m.inner d.toDelimiters) (m.depth + 1)) rfl
  rw [Placed, openings_concat d.toDelimiters houtlines]
  refine .cons ?_ h
  have htake : source.take
      ((m.passed d.toDelimiters).length + (m.top.childOpener d.toDelimiters).length) =
      m.passed d.toDelimiters ++ m.top.childOpener d.toDelimiters := by
    obtain ⟨tail, ht⟩ := hopener
    rw [hm.source_eq, ← ht, ← List.append_assoc, ← List.length_append, List.take_left]
  change (m.cursor.skip (m.top.childOpener d.toDelimiters).length).line = lineAfter line
    (source.take ((m.passed d.toDelimiters).length + (m.top.childOpener d.toDelimiters).length))
  rw [htake]
  exact Cursor.line_skip_isPrefix hm.line_eq_lineAfter hopener

theorem Placed.left (h : m.Placed d source line) {parent : Region} {below : List Region}
    (hb : m.below = parent :: below) : (m.left d parent below).Placed d source line := by
  have houtlines : (m.left d parent below).outlines = m.outlines ++ [.closed m.top.kind] :=
    outlines_push (e := .closed m.top _) rfl
  rw [Placed, openings_concat d.toDelimiters houtlines]
  rw [Placed, stack, hb] at h
  cases hopen : m.openings d.toDelimiters with
  | nil =>
    rw [hopen] at h
    cases h with
    | cons _ hnil => cases hnil
  | cons n ns =>
    rw [hopen, List.cons_append] at h
    obtain ⟨-, hrest⟩ := List.forall₂_cons.mp h
    obtain ⟨n', ns', hparent, hbelow, hns⟩ := List.forall₂_cons_left_iff.mp hrest
    change List.Forall₂ _ _ (ns ++ [0])
    rw [hns]
    refine .cons ?_ hbelow
    rw [← hparent]
    exact Region.fold_startLine _ _ _

theorem Move.lined (h : Move d m m') (hm : Reaches (begun d source line) m)
    (hl : Lined d source line m) : Lined d source line m' := by
  refine ⟨?_, ?_⟩
  · obtain ⟨e, hpush, hlocated⟩ := h.located hm.line_eq_lineAfter
    rw [hpush, Array.toList_push]
    exact forall_split_concat hl.events hlocated
  · cases h with
    | token kind value _ => exact hl.regions.took kind value
    | enter c _ ho => exact hl.regions.entered hm ho
    | leave c _ ho he parent below hb => exact hl.regions.left hb
    | text c _ ho he => exact hl.regions.took .text [c]

theorem Reaches.lined (h : Reaches (begun d source line) m) : Lined d source line m := by
  refine ((h.induct (begun_nested d source line)
    (P := fun m => Reaches (begun d source line) m ∧ Lined d source line m)
    ⟨.refl, lined_begun d source line⟩) ?_).2.2
  intro a b hn hmove ha
  exact ⟨ha.1.tail (hmove.goes hn), hmove.lined ha.1 ha.2⟩

/-- The innermost open region begins on the line of the place where its text begins. -/
theorem Placed.top (h : m.Placed d source line) :
    m.top.startLine = lineAfter line (source.take (m.openedAt d.toDelimiters)) := by
  obtain ⟨n, ns, htop, -, hns⟩ := List.forall₂_cons_left_iff.mp h
  have hn : n = m.openedAt d.toDelimiters := by
    rw [openedAt]
    cases hopen : m.openings d.toDelimiters <;> rw [hopen] at hns <;> cases hns <;> rfl
  rw [← hn]
  exact htop

end Machine

/-- What the answer of a run has to say about lines, given the transpiler that the run leaves. -/
inductive Transpiler.Locates (line : Int) (source : List Char) (t : Transpiler) :
    Except Diagnostic String → Prop
  | accepted (output : String) : Locates line source t (.ok output)
  /-- The literal is read up to its first bare line break, which stands behind `body`. -/
  | lineBreak (quote : Char) (body rest : List Char) (hq : Literal.isQuote quote = true)
      (hm : quote ≠ Literal.multiLineQuote) (hb : Literal.Body quote body)
      (hs : source = t.recorded ++ quote :: (body ++ '\n' :: rest)) :
      Locates line source t (.error (.located (.unterminatedString "Unexpected multi-line string")
        (some (lineAfter line (t.recorded ++ quote :: body))) (some t.file)))
  | inputEnd :
      Locates line source t (.error (.located (.unterminatedString "Unexpected end of file")
        (some (lineAfter line source)) (some t.file)))
  | region (hk : t.machine.top.kind ≠ .root)
      (hl : t.machine.top.startLine =
        lineAfter line (source.take (t.machine.openedAt t.dialect.toDelimiters))) :
      Locates line source t (.error (.located
        (.unterminatedRegion t.machine.top.kind.name
          (String.ofList (t.machine.top.kind.closer t.dialect.toDelimiters))
          t.machine.top.startLine)
        (some (lineAfter line source)) (some t.file)))

namespace Transpiler

variable {d : Dialect} {m : Machine} {source : List Char} {line : Int}

/-- Behind the source the root is left, or a region is open. -/
theorem locates_atEnd (hm : Machine.Reaches (Machine.begun d source line) m)
    (hr : m.cursor.rest = []) (file : String) :
    Locates line source { dialect := d, file, machine := m } (answer d file (m.result d)) := by
  rw [Machine.result]
  by_cases hk : m.top.kind = .root
  · rw [if_pos hk]
    exact .accepted _
  · have hline : m.cursor.line = lineAfter line source := by
      have hs := hm.source_eq
      rw [hr, List.append_nil] at hs
      rw [hm.line_eq_lineAfter, ← hs]
    rw [if_neg hk, hline]
    exact .region hk hm.lined.regions.top

theorem locates_broken (hm : Machine.Reaches (Machine.begun d source line) m)
    {ending : Literal.Ending} {taken : List Char}
    (hl : lexeme m.cursor.rest = .broken ending taken) (file : String) :
    Locates line source { dialect := d, file, machine := m.skip taken.length }
      (answer d file (.error (ending.failure (m.cursor.skip taken.length).line))) := by
  have hs := hm.source_eq
  rcases broken_cases hl with ⟨rfl, quote, body, rest, hq, hmulti, hb, rfl, hr⟩ | ⟨rfl, htaken⟩
  · rw [Cursor.line_skip_isPrefix hm.line_eq_lineAfter ⟨_, hr.symm⟩]
    refine .lineBreak quote body rest hq hmulti hb ?_
    rw [hr, List.cons_append] at hs
    exact hs
  · have hprefix : taken <+: m.cursor.rest := htaken ▸ List.prefix_refl taken
    have hline := Cursor.line_skip_isPrefix hm.line_eq_lineAfter hprefix
    rw [hline, htaken, ← hs]
    exact .inputEnd

/-- Every line that a run reports is the line of the place that it reports on. -/
theorem locates_run (d : Dialect) (hd : d.Progressive) (file : String) (line : Int)
    (source : String) :
    (∀ before e after,
      (new d file line source).run.1.machine.trace.toList = before ++ e :: after →
      ∃ rest, source.toList = before.flatMap (Event.source d.toDelimiters) ++
          (e.source d.toDelimiters ++ rest) ∧
        e.Located d.toDelimiters line (before.flatMap (Event.source d.toDelimiters))) ∧
    Locates line source.toList (new d file line source).run.1 (new d file line source).run.2 ∧
    (∀ line' output, (new d file line source).run.2 = .ok output →
      (new d file line' source).run.2 = .ok output) ∧
    ∀ (c : Cursor) (ch : Char) (rest : List Char), c.rest = ch :: rest →
      (c.skip 1).line = if ch = '\n' then c.line + 1 else c.line := by
  obtain ⟨hmachine, hanswer⟩ := run_new d file line source
  obtain ⟨m, hm, hstop⟩ := Machine.run_begun_stops hd source.toList line
  have hleft : (new d file line source).run.1 =
      { dialect := d, file, machine := (Machine.begun d source.toList line).run.machine } := by
    rw [← hmachine]
    rfl
  refine ⟨?_, ?_, ?_, fun c ch rest h => Cursor.line_skip_one h⟩
  · intro before e after he
    have htrace : m.trace.toList = before ++ e :: after := by
      rw [← he, hmachine]
      rcases hstop with ⟨-, hrun⟩ | ⟨ending, taken, -, hrun⟩
      · rw [hrun]
      · rw [hrun]
        rfl
    refine ⟨after.flatMap (Event.source d.toDelimiters) ++ m.cursor.rest, ?_,
      hm.lined.events before e after htrace⟩
    rw [← hm.traced.2.partition, htrace]
    simp
  · rw [hleft, hanswer]
    rcases hstop with ⟨hr, hrun⟩ | ⟨ending, taken, hl, hrun⟩ <;> rw [hrun]
    · exact locates_atEnd hm hr file
    · exact locates_broken hm hl file
  · intro line' output hok
    rw [hanswer] at hok
    cases houtcome : (Machine.begun d source.toList line).run.outcome d with
    | ok text =>
      rw [houtcome] at hok
      rw [(run_new d file line' source).2, Machine.outcome_begun_line hd houtcome line']
      exact hok
    | error failure =>
      rw [houtcome] at hok
      cases hok

/-- The line breaks in a comment and behind a backslash are counted; the one that is refused is not.
-/
theorem locates_run_escaped :
    Dialect.standard.Progressive ∧
    Locates (-3) "/*\n*/'a\\\nb\nc'".toList (new .standard "page" (-3) "/*\n*/'a\\\nb\nc'").run.1
      (.error (.located (.unterminatedString "Unexpected multi-line string") (some (-1))
        (some "page"))) := by
  have hanswer : (new .standard "page" (-3) "/*\n*/'a\\\nb\nc'").run.2 =
      .error (.located (.unterminatedString "Unexpected multi-line string") (some (-1))
        (some "page")) := by
    decide +kernel
  have hd : Dialect.standard.Progressive := by decide
  rw [← hanswer]
  exact ⟨hd, (locates_run .standard hd "page" (-3) "/*\n*/'a\\\nb\nc'").2.1⟩

end Transpiler
end InlineSheet
