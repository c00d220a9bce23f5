import InlineSheet.Proofs.Loop

/-!
# The trace of a run

Every round adds one event to the trace. The events say all that happened: their parts of the input,
put together, are what has been read (`Traced.partition`), each token has the form of its kind
(`Traced.shaped`), and the open regions are those to which the events lead (`Traced.replay`). Main
statement: at the end of a run the events make up the whole source, or all of it in front of a literal
that is not closed.
-/
namespace InlineSheet

/-- What holds of each entry of a list and those before it, and of one more entry, holds all along the
longer list. -/
theorem forall_split_concat {α : Type} {P : List α → α → Prop} {xs : List α} {x : α}
    (h : ∀ before y after, xs = before ++ y :: after → P before y) (hx : P xs x) :
    ∀ before y after, xs ++ [x] = before ++ y :: after → P before y := by
  intro before y after he
  rcases List.eq_nil_or_concat after with rfl | ⟨front, last, rfl⟩
  · obtain ⟨rfl, hlast⟩ := List.append_inj' he rfl
    obtain rfl : x = y := by simpa using hlast
    exact hx
  · rw [List.concat_eq_append, ← List.cons_append, ← List.append_assoc] at he
    exact h before y front (List.append_inj' he rfl).1

namespace Event

def Shaped : Event → Prop
  | .token _ t => t.kind.Admits t.value
  | .opened _ _ => True
  | .closed _ _ => True

/-- What an event does to the open regions, innermost first. -/
inductive Leads (d : Dialect) : List Region → Event → List Region → Prop
  | token (top : Region) (below : List Region) (t : Token) :
      Leads d (top :: below) (.token top.kind t) (top.accept d.toDelimiters t :: below)
  | opened (top : Region) (below : List Region) (startLine : Int) :
      Leads d (top :: below)
        (.opened { kind := top.kind.child, startLine, dialect := top.dialect } (below.length + 1))
        ({ kind := top.kind.child, startLine, dialect := top.dialect } :: top :: below)
  | closed (top parent : Region) (below : List Region) (line : Int) :
      Leads d (top :: parent :: below) (.closed top line)
        (parent.fold d.toRuntime (top.render d.toRuntime) :: below)

inductive Replay (d : Dialect) : List Region → List Event → List Region → Prop
  | nil (s : List Region) : Replay d s [] s
  | cons {s s' s'' : List Region} {e : Event} {es : List Event} (h : Leads d s e s')
      (hr : Replay d s' es s'') : Replay d s (e :: es) s''

theorem Replay.append {d : Dialect} {s s' s'' : List Region} {es fs : List Event}
    (h : Replay d s es s') (h' : Replay d s' fs s'') : Replay d s (es ++ fs) s'' := by
  induction h with
  | nil => exact h'
  | cons he _ ih => exact .cons he (ih h')

theorem Replay.split {d : Dialect} {s s'' : List Region} {es fs : List Event}
    (h : Replay d s (es ++ fs) s'') : ∃ s', Replay d s es s' ∧ Replay d s' fs s'' := by
  induction es generalizing s with
  | nil => exact ⟨s, .nil s, h⟩
  | cons e es ih =>
    cases h with
    | cons he hr =>
      obtain ⟨s', hs, hf⟩ := ih hr
      exact ⟨s', .cons he hs, hf⟩

/-- A region to which only tokens are handed takes them one after the other. -/
theorem Replay.tokens {d : Dialect} {r : Region} {below s' : List Region} {k : Region.Kind}
    {ts : List Token} (h : Replay d (r :: below) (ts.map (.token k)) s') :
    s' = ts.foldl (Region.accept d.toDelimiters) r :: below := by
  induction ts generalizing r with
  | nil =>
    cases h
    rfl
  | cons t ts ih =>
    cases h with
    | cons he hr =>
      cases he
      exact ih hr

end Event

theorem Cursor.rest_eq_append_skip {c : Cursor} {cs : List Char} (h : cs <+: c.rest) :
    c.rest = cs ++ (c.skip cs.length).rest := by
  obtain ⟨tail, ht⟩ := h
  simp [skip, ← ht]

namespace Machine

open Event

/-- A move adds one event, and the event tells what the move did. -/
theorem Move.event {d : Dialect} {m m' : Machine} (h : Move d m m') :
    ∃ e : Event, m'.trace = m.trace.push e ∧ e.Shaped ∧ Leads d m.stack e m'.stack ∧
      m.cursor.rest = e.source d.toDelimiters ++ m'.cursor.rest := by
  cases h with
  | token kind value hl =>
    obtain ⟨hp, ha⟩ := admits_of_lexeme_token hl
    exact ⟨_, rfl, ha, .token m.top m.below _, Cursor.rest_eq_append_skip hp⟩
  | enter c hl ho =>
    refine ⟨_, rfl, trivial, .opened m.top m.below _, ?_⟩
    exact Cursor.rest_eq_append_skip (List.isPrefixOf_iff_prefix.mp ho)
  | leave c hl ho he parent below hb =>
    have hst : m.stack = m.top :: parent :: below := congrArg (m.top :: ·) hb
    refine ⟨_, rfl, trivial, hst ▸ .closed m.top parent below _, ?_⟩
    exact Cursor.rest_eq_append_skip (List.isPrefixOf_iff_prefix.mp he.2.1)
  | text c hl ho he =>
    obtain ⟨rest, hr, hq, -, hb⟩ := cons_of_lexeme_plain hl
    refine ⟨_, rfl, ⟨c, hq, hb, rfl⟩, .token m.top m.below _, ?_⟩
    exact Cursor.rest_eq_append_skip ⟨rest, hr.symm⟩

/-- The events of a machine that reads `source` from an open root on. -/
structure Traced (d : Dialect) (source : List Char) (line : Int) (m : Machine) : Prop where
  partition : m.trace.toList.flatMap (Event.source d.toDelimiters) ++ m.cursor.rest = source
  shaped : ∀ e ∈ m.trace.toList, e.Shaped
  replay : Replay d [{ kind := .root, startLine := line, dialect := d }] m.trace.toList m.stack

theorem traced_begun (d : Dialect) (source : List Char) (line : Int) :
    Traced d source line (begun d source line) where
  partition := rfl
  shaped := by simp [begun, start]
  replay := .nil _

theorem Move.traced {d : Dialect} {source : List Char} {line : Int} {m m' : Machine}
    (h : Move d m m') (ht : Traced d source line m) : Traced d source line m' := by
  obtain ⟨e, hpush, hshape, hlead, hrest⟩ := h.event
  have htrace : m'.trace.toList = m.trace.toList ++ [e] := by rw [hpush, Array.toList_push]
  refine ⟨?_, ?_, ?_⟩
  · rw [htrace, List.flatMap_append, List.append_assoc, List.flatMap_cons, List.flatMap_nil,
      List.append_nil, ← hrest]
    exact ht.partition
  · intro e' he'
    rw [htrace, List.mem_append, List.mem_singleton] at he'
    rcases he' with he' | rfl
    · exact ht.shaped e' he'
    · exact hshape
  · rw [htrace]
    exact ht.replay.append (.cons hlead (.nil _))

theorem Reaches.traced {d : Dialect} {source : List Char} {line : Int} {m : Machine}
    (h : Reaches (begun d source line) m) : Nested d m.stack ∧ Traced d source line m :=
  h.induct (begun_nested d source line) (traced_begun d source line) fun _ _ _ hm ht => hm.traced ht

/-- Whatever a run comes to, its events are those of the last machine reached. -/
theorem exists_reaches_run {d : Dialect} {m : Machine} (hn : Nested d m.stack) :
    ∃ m', Reaches m m' ∧ m.run.machine.trace = m'.trace := by
  obtain ⟨m', k, hp, he⟩ := exists_reaches_runFor (2 * m.cursor.size) hn
  exact ⟨m', hp, by rw [run, he]; rfl⟩

/-- A run comes behind its source or in front of a literal that is not closed. -/
theorem run_begun_stops {d : Dialect} (hd : d.Progressive) (source : List Char) (line : Int) :
    ∃ m, Reaches (begun d source line) m ∧
      (m.cursor.rest = [] ∧ (begun d source line).run = { machine := m } ∨
        ∃ ending taken, lexeme m.cursor.rest = .broken ending taken ∧
          (begun d source line).run =
            { machine := m.skip taken.length,
              failure := some (ending.failure (m.cursor.skip taken.length).line) }) := by
  obtain ⟨m, hp, hs⟩ := run_stops hd (begun_nested d source line)
  refine ⟨m, hp, ?_⟩
  by_cases hr : m.cursor.rest = []
  · exact .inl ⟨hr, hs.unique (.atEnd hr)⟩
  · exact .inr (hs.broken hp.traced.1 hr)

theorem run_begun_ends {d : Dialect} (hd : d.Progressive) (source : List Char) (line : Int) :
    ∃ m, Traced d source line m ∧ (begun d source line).run.machine.trace = m.trace ∧
      (m.cursor.rest = [] ∧ (begun d source line).run.outcome d = m.result d ∨
        ∃ ending taken, lexeme m.cursor.rest = .broken ending taken ∧
          (begun d source line).run.outcome d =
            .error (ending.failure (m.cursor.skip taken.length).line)) := by
  obtain ⟨m, hp, ⟨hr, he⟩ | ⟨ending, taken, hl, he⟩⟩ := run_begun_stops hd source line <;> rw [he]
  · exact ⟨m, hp.traced.2, rfl, .inl ⟨hr, rfl⟩⟩
  · exact ⟨m, hp.traced.2, rfl, .inr ⟨ending, taken, hl, rfl⟩⟩

end Machine

theorem Failure.category?_report_ending (d : Delimiters) (file : String) (line : Int)
    (ending : Literal.Ending) :
    ((ending.failure line).report d file).category? = some .unterminatedString := by
  cases ending <;> rfl

/-- The parts of the input that the events so far stand for, put together. -/
def Transpiler.recorded (t : Transpiler) : List Char :=
  t.machine.trace.toList.flatMap (Event.source t.dialect.toDelimiters)

/-- What a recorded text has to be, given the answer: all of the source, or, where a literal is not
closed, all of it before that literal. -/
inductive Transpiler.Covers (source : List Char) : Except Diagnostic String → List Char → Prop
  | accepted (output : String) : Covers source (.ok output) source
  | region {diagnostic : Diagnostic} (hc : diagnostic.category? = some .unterminatedRegion) :
      Covers source (.error diagnostic) source
  | literal {diagnostic : Diagnostic} {recorded : List Char}
      (hc : diagnostic.category? = some .unterminatedString) (quote : Char) (rest : List Char)
      (hq : Literal.isQuote quote = true) (ho : (Literal.scan (quote :: rest)).1 ≠ .closed)
      (hs : source = recorded ++ quote :: rest) : Covers source (.error diagnostic) recorded

/-- No character of a source is lost or read twice, and every token has the form of its kind. -/
theorem Transpiler.covers_run (d : Dialect) (hd : d.Progressive) (file : String) (line : Int)
    (source : String) :
    Covers source.toList (Transpiler.new d file line source).run.2
      (Transpiler.new d file line source).run.1.recorded ∧
    ∀ p ∈ (Transpiler.new d file line source).run.1.tokens, p.2.kind.Admits p.2.value := by
  obtain ⟨m, ht, htrace, hend⟩ := Machine.run_begun_ends hd source.toList line
  obtain ⟨hmachine, hanswer⟩ := Transpiler.run_new d file line source
  have hevents : (Transpiler.new d file line source).run.1.machine.trace = m.trace := by
    rw [hmachine, htrace]
  have hrecorded :
      (Transpiler.new d file line source).run.1.recorded ++ m.cursor.rest = source.toList := by
    rw [Transpiler.recorded, hevents]
    exact ht.partition
  constructor
  · rcases hend with ⟨hr, ho⟩ | ⟨ending, taken, hl, ho⟩
    · rw [hr, List.append_nil] at hrecorded
      rw [hanswer, ho, Machine.result, hrecorded]
      by_cases hroot : m.top.kind = .root
      · rw [if_pos hroot]
        exact .accepted _
      · rw [if_neg hroot]
        exact .region rfl
    · obtain ⟨quote, rest, hr, hq, hscan, hopen⟩ := scan_of_lexeme_broken hl
      rw [hr] at hrecorded hscan
      rw [hanswer, ho]
      refine .literal (Failure.category?_report_ending _ _ _ _) quote rest hq ?_ hrecorded.symm
      rw [hscan]
      exact hopen
  · intro p hp
    rw [Transpiler.tokens, hevents] at hp
    obtain ⟨e, he, hep⟩ := List.mem_filterMap.mp hp
    have hshape := ht.shaped e he
    cases e with
    | token receiver token =>
      cases hep
      exact hshape
    | opened | closed => cases hep

/-- An empty closing delimiter takes no input. A stylesheet closed by one stands before the literal
that is not closed. -/
theorem Transpiler.covers_run_empty_closer :
    ({ sheetClose := [] } : Dialect).Progressive ∧
    Covers "<<a<<\"b".toList
      (.error (.located (.unterminatedString "Unexpected end of file") (some 1) (some "page")))
      (Transpiler.new { sheetClose := [] } "page" 1 "<<a<<\"b").run.1.recorded := by
  have hanswer : (Transpiler.new { sheetClose := [] } "page" 1 "<<a<<\"b").run.2 =
      .error (.located (.unterminatedString "Unexpected end of file") (some 1) (some "page")) := by
    decide +kernel
  have hd : ({ sheetClose := [] } : Dialect).Progressive := by decide
  rw [← hanswer]
  exact ⟨hd, (Transpiler.covers_run { sheetClose := [] } hd "page" 1 "<<a<<\"b").1⟩

end InlineSheet
