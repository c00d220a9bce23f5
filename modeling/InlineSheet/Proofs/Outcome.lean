import InlineSheet.Proofs.Trace

/-!
# How a run can end

A run has three ends: the root alone is left behind the source, a literal is not closed, or a region
is. `Ended` tells them from the machine that is left. The machine's other failures stand for
operations that are not defined everywhere: an empty literal has no first character, and the
outermost region has none around it. Main statement: the first run of a transpiler has one of the
three ends, and no round on the way comes to such an operation outside its domain, though some
machines that no run reaches do.
-/
namespace InlineSheet

/-- What a first run answers, told from the transpiler that it leaves. -/
inductive Transpiler.Ended (t : Transpiler) : Except Diagnostic String → Prop
  | accepted (hk : t.machine.top.kind = .root) (hb : t.machine.below = [])
      (he : t.machine.cursor.atEnd = true) :
      Ended t (.ok (String.ofList t.machine.top.content.toList))
  | literal (text : String)
      (ht : text = "Unexpected multi-line string" ∨ text = "Unexpected end of file") :
      Ended t (.error
        (.located (.unterminatedString text) (some t.machine.cursor.line) (some t.file)))
  | region (hk : t.machine.top.kind = .sheet ∨ t.machine.top.kind = .expr)
      (he : t.machine.cursor.atEnd = true) :
      Ended t (.error (.located
        (.unterminatedRegion t.machine.top.kind.name
          (String.ofList (t.machine.top.kind.closer t.dialect.toDelimiters))
          t.machine.top.startLine)
        (some t.machine.cursor.line) (some t.file)))

namespace Machine

/-- The next round stays where its operations are defined. -/
structure Guarded (d : Dialect) (m : Machine) : Prop where
  /-- Every region but the root is of the kind that opens in the one around it. -/
  nested : Nested d m.stack
  /-- Every token handed out so far, and by this round, has a first character. -/
  tokens : ∀ receiver t, .token receiver t ∈ (m.step d).machine.trace.toList → t.value ≠ []
  /-- A region that ends has one around it to be folded into. -/
  around : m.top.Ends d.toDelimiters m.cursor → m.below ≠ []
  /-- If the round fails, then at a literal. -/
  failure : ∀ failure, (m.step d).failure = some failure →
    ∃ line, failure = .multiLineString line ∨ failure = .unclosedString line

theorem Nested.below_eq_nil {d : Dialect} {r : Region} {below : List Region}
    (h : Nested d (r :: below)) (hk : r.kind = .root) : below = [] := by
  cases below with
  | nil => rfl
  | cons parent below =>
    have hchild := hk.symm.trans h.1.1
    cases hp : parent.kind <;> rw [hp] at hchild <;> cases hchild

theorem Traced.token_ne_nil {d : Dialect} {source : List Char} {line : Int} {m : Machine}
    (h : Traced d source line m) {receiver : Region.Kind} {t : Token}
    (ht : .token receiver t ∈ m.trace.toList) : t.value ≠ [] :=
  Token.Kind.Admits.ne_nil (h.shaped _ ht)

/-- The events of a round are again those of a machine that a run reaches. -/
theorem Traced.step {d : Dialect} {source : List Char} {line : Int} {m : Machine}
    (hn : Nested d m.stack) (h : Traced d source line m) :
    ∃ m', Traced d source line m' ∧ (m.step d).machine.trace = m'.trace := by
  rcases step_cases d hn with ⟨-, hs⟩ | ⟨m', hm, hs⟩ | ⟨ending, taken, -, hs⟩ <;> rw [hs]
  · exact ⟨m, h, rfl⟩
  · exact ⟨m', hm.traced h, rfl⟩
  · exact ⟨m, h, rfl⟩

theorem Reaches.guarded {d : Dialect} {source : List Char} {line : Int} {m : Machine}
    (h : Reaches (begun d source line) m) : m.Guarded d := by
  obtain ⟨hn, ht⟩ := h.traced
  refine ⟨hn, ?_, fun he => hn.below_ne_nil he.1, ?_⟩
  · intro receiver t hmem
    obtain ⟨m', ht', he⟩ := ht.step hn
    rw [he] at hmem
    exact ht'.token_ne_nil hmem
  · intro failure hf
    rcases step_cases d hn with ⟨-, hs⟩ | ⟨m', -, hs⟩ | ⟨ending, taken, -, hs⟩ <;> rw [hs] at hf
    · cases hf
    · cases hf
    · rw [← Option.some.inj hf]
      cases ending with
      | lineBreak => exact ⟨_, .inl rfl⟩
      | closed | inputEnd => exact ⟨_, .inr rfl⟩

end Machine

theorem Region.add?_eq_none_iff (d : Delimiters) (r : Region) (t : Token) :
    r.add? d t = none ↔ r.kind = .sheet ∧ t.kind = .string ∧ t.value = [] := by
  by_cases hr : r.Refuses t
  · simp only [add?, if_pos hr, true_iff]
    exact hr
  · simp only [add?, if_neg hr, reduceCtorEq, false_iff]
    exact hr

namespace Machine

/-- At the end of the input a literal is empty, and it is handed on all the same. -/
theorem scanString_atEnd (d : Delimiters) {m : Machine} (hr : m.cursor.rest = []) :
    m.scanString d = m.deliver d .string [] := by
  simp only [scanString, hr, Literal.scan]

theorem deliver_trace (d : Delimiters) (m : Machine) (kind : Token.Kind) (value : List Char) :
    (m.deliver d kind value).machine.trace =
      m.trace.push (.token m.top.kind { kind, value, line := m.cursor.line }) := by
  unfold deliver
  dsimp only
  split <;> rfl

theorem deliver_failure_iff (d : Delimiters) (m : Machine) :
    (m.deliver d .string []).failure = some .emptyString ↔ m.top.kind = .sheet := by
  have hnone :=
    Region.add?_eq_none_iff d m.top { kind := .string, value := [], line := m.cursor.line }
  by_cases hk : m.top.kind = .sheet
  · have ha := hnone.mpr ⟨hk, rfl, rfl⟩
    simp only [deliver, skip, record, ha, hk]
  · obtain ⟨top, ha⟩ := Option.ne_none_iff_exists'.mp fun ha => hk (hnone.mp ha).1
    simp only [deliver, skip, record, ha, hk, reduceCtorEq]

end Machine

theorem Failure.report_ending (d : Delimiters) (file : String) (line : Int)
    (ending : Literal.Ending) :
    ∃ text, (text = "Unexpected multi-line string" ∨ text = "Unexpected end of file") ∧
      (ending.failure line).report d file =
        .located (.unterminatedString text) (some line) (some file) := by
  cases ending with
  | lineBreak => exact ⟨_, .inl rfl, rfl⟩
  | closed | inputEnd => exact ⟨_, .inr rfl, rfl⟩

theorem Transpiler.ended_of_stops {d : Dialect} {m : Machine} {p : Progress}
    (hn : Machine.Nested d m.stack) (hs : Machine.Stops m p) (file : String) :
    Ended { dialect := d, file, machine := p.machine } (answer d file (p.outcome d)) := by
  by_cases hr : m.cursor.rest = []
  · rw [hs.unique (.atEnd hr)]
    have he : m.cursor.atEnd = true := by simp [Cursor.atEnd, hr]
    change Ended { dialect := d, file, machine := m } (answer d file (m.result d))
    rw [Machine.result]
    by_cases hk : m.top.kind = .root
    · have hrender : m.top.render d.toRuntime = m.top.content.toList := by
        simp only [Region.render, hk]
      rw [if_pos hk, hrender]
      exact .accepted hk (hn.below_eq_nil hk) he
    · have hkind : m.top.kind = .sheet ∨ m.top.kind = .expr := by
        cases hkind : m.top.kind with
        | root => exact absurd hkind hk
        | sheet => exact .inl rfl
        | expr => exact .inr rfl
      rw [if_neg hk]
      exact .region hkind he
  · obtain ⟨ending, taken, -, hb⟩ := hs.broken hn hr
    obtain ⟨text, htext, hreport⟩ := Failure.report_ending d.toDelimiters file
      (m.cursor.skip taken.length).line ending
    rw [hb]
    change Ended { dialect := d, file, machine := m.skip taken.length }
      (.error ((ending.failure (m.cursor.skip taken.length).line).report d.toDelimiters file))
    rw [hreport]
    exact .literal text htext

/-- Only a literal or a region that is not closed can make a first run fail. -/
theorem Transpiler.ended_run (d : Dialect) (hd : d.Progressive) (file : String) (line : Int)
    (source : String) :
    Ended (Transpiler.new d file line source).run.1 (Transpiler.new d file line source).run.2 ∧
    (∀ m, Machine.Reaches (Machine.begun d source.toList line) m → m.Guarded d) ∧
    (∀ (r : Region) (t : Token), r.add? d.toDelimiters t = none ↔
      r.kind = .sheet ∧ t.kind = .string ∧ t.value = []) ∧
    ∀ m : Machine, m.cursor.rest = [] →
      (m.scanString d.toDelimiters).machine.trace =
        m.trace.push (.token m.top.kind { kind := .string, value := [], line := m.cursor.line }) ∧
      ((m.scanString d.toDelimiters).failure = some .emptyString ↔ m.top.kind = .sheet) := by
  refine ⟨?_, fun m hm => hm.guarded, Region.add?_eq_none_iff d.toDelimiters, ?_⟩
  · have hn := Machine.begun_nested d source.toList line
    obtain ⟨m, hp, hs⟩ := Machine.run_stops hd hn
    obtain ⟨hmachine, hanswer⟩ := Transpiler.run_new d file line source
    rw [hanswer]
    have hleft : (Transpiler.new d file line source).run.1 =
        { dialect := d, file, machine := (Machine.begun d source.toList line).run.machine } := by
      rw [← hmachine]
      rfl
    rw [hleft]
    exact ended_of_stops (hp.nested hn) hs file
  · intro m hr
    rw [Machine.scanString_atEnd _ hr]
    exact ⟨Machine.deliver_trace _ _ _ _, Machine.deliver_failure_iff _ _⟩

/-- An empty literal still has its quotes. Of the two regions left open the inner one is reported.
-/
theorem Transpiler.ended_run_empty_literal :
    Dialect.standard.Progressive ∧
    Ended (Transpiler.new .standard "page" 1 "<<''\n[\"\"").run.1
      (.error (.located (.unterminatedRegion "host expression" "]" 2) (some 2) (some "page"))) := by
  have hanswer : (Transpiler.new .standard "page" 1 "<<''\n[\"\"").run.2 =
      .error (.located (.unterminatedRegion "host expression" "]" 2) (some 2) (some "page")) := by
    decide +kernel
  have hd : Dialect.standard.Progressive := by decide
  rw [← hanswer]
  exact ⟨hd, (Transpiler.ended_run .standard hd "page" 1 "<<''\n[\"\"").1⟩

end InlineSheet
