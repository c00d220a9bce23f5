import InlineSheet.Proofs.Threads

/-!
# Scoping

The text of a program tells which dialect is current where: settings that are accepted hold up to
the end of the block or the thread they stand in, and no further. `momentsAll` lists the commands of
a program as they are done with, each with the dialect that is current in front of it by this rule.
Main statement: the reports of a session are those that the moments call for. A stored transpiler
has the dialect of the moment it was made in, wherever it is run.
-/
namespace InlineSheet
namespace Session

/-- A command, and the dialect that is current in front of it. -/
structure Moment where
  current : Dialect
  command : Command

mutual

/-- The moments of a command in front of which `d` is current. A block comes behind the commands in
it, and these do not come up if its settings are refused. -/
def Command.moments (d : Dialect) : Command → List Moment
  | .scoped settings raises body =>
    match settings.dialect with
    | .ok inner => Command.momentsAll inner body ++ [⟨d, .scoped settings raises body⟩]
    | .error _ => [⟨d, .scoped settings raises body⟩]
  | .thread body => Command.momentsAll .standard body ++ [⟨d, .thread body⟩]
  | command => [⟨d, command⟩]

def Command.momentsAll (d : Dialect) : List Command → List Moment
  | [] => []
  | command :: rest => command.moments d ++ Command.momentsAll (command.next d) rest

end

/-- The dialect that is current behind the command. -/
def Report.current : Report → Dialect
  | .single _ current => current
  | .block _ _ current => current

mutual

/-- The reports of a command, in the order of its moments. -/
def Report.flatten : Report → List Report
  | .single outcome current => [.single outcome current]
  | .block inner raised current => Report.flattenAll inner ++ [.block inner raised current]

def Report.flattenAll : List Report → List Report
  | [] => []
  | report :: rest => report.flatten ++ Report.flattenAll rest

end

/-- What has become of a program: its moments with their reports. -/
def log (s : Session) (program : List Command) : List (Moment × Report) :=
  (Command.momentsAll s.current program).zip (Report.flattenAll (execAll s program).2)

/-- What a source in the given dialect comes to. -/
def answer (d : Dialect) (source : String) : Except Error Value :=
  ((InlineSheet.transpile d Transpiler.unnamed source).map Value.text).mapError .rejected

namespace Moment

/-- The dialect that a command takes at this moment. -/
def choose (m : Moment) (settings : Option Settings) : Except Error Dialect :=
  Session.choose { current := m.current } settings

/-- Runs what is stored under the name, or stores something else there. -/
def Touches (id : String) (m : Moment) : Prop :=
  match m.command with
  | .run name => name = id
  | .make name settings _ => name = id ∧ ∃ d, m.choose settings = .ok d
  | _ => False

end Moment

/-- Each report is the one that its moment calls for. -/
structure Lexical (log : List (Moment × Report)) : Prop where
  /-- In particular a block and a thread give back the dialect in front of them. -/
  after : ∀ m r, (m, r) ∈ log → r.current = m.command.next m.current
  get : ∀ d r, (⟨d, .get⟩, r) ∈ log → r = .single (.ok (.dialect d)) d
  refused : ∀ d settings raises body r e, (⟨d, .scoped settings raises body⟩, r) ∈ log →
    settings.dialect = .error e → r = .single (.error (.settings e)) d
  left : ∀ d settings raises body r inner, (⟨d, .scoped settings raises body⟩, r) ∈ log →
    settings.dialect = .ok inner → ∃ reports, r = .block reports (some raises) d
  explicit : ∀ d settings source r, (⟨d, .transpile (some settings) source⟩, r) ∈ log →
    r = .single ((settings.dialect.mapError .settings).bind (answer · source)) d
  implicit : ∀ d source r, (⟨d, .transpile none source⟩, r) ∈ log →
    r = .single (answer d source) d
  /-- A transpiler that is run for the first time since it was made. -/
  captured : ∀ before between behind id settings source d chosen made here ran,
    log = before ++ (⟨d, .make id settings source⟩, made) ::
      (between ++ (⟨here, .run id⟩, ran) :: behind) →
    Moment.choose ⟨d, .make id settings source⟩ settings = .ok chosen →
    (∀ e ∈ between, ¬ e.1.Touches id) → ran = .single (answer chosen source) here

/-- How a command is left that has run commands of its own. -/
def Command.left? : Command → Option (Option Bool)
  | .scoped settings raises _ =>
    match settings.dialect with
    | .ok _ => some (some raises)
    | .error _ => none
  | .thread _ => some none
  | _ => none

/-- What happens to the stored transpilers at one moment, and the report of it. -/
inductive Happens (stored : List (String × Transpiler)) :
    Moment → Report → List (String × Transpiler) → Prop
  | obeyed (d : Dialect) (c : Command) (hc : c.left? = none) :
      Happens stored ⟨d, c⟩ (exec ⟨d, stored⟩ c).2 (exec ⟨d, stored⟩ c).1.stored
  | left (d : Dialect) (c : Command) (raised : Option Bool) (hc : c.left? = some raised)
      (reports : List Report) : Happens stored ⟨d, c⟩ (.block reports raised d) stored

/-- What happens at one moment after the other. -/
inductive Replays : List (String × Transpiler) → List (Moment × Report) →
    List (String × Transpiler) → Prop
  | nil (stored : List (String × Transpiler)) : Replays stored [] stored
  | cons {stored stored' stored'' : List (String × Transpiler)} {m : Moment} {r : Report}
      {log : List (Moment × Report)} (h : Happens stored m r stored')
      (rest : Replays stored' log stored'') : Replays stored ((m, r) :: log) stored''

section Replay

variable {stored stored' stored'' : List (String × Transpiler)} {m : Moment} {r : Report}
  {log log' : List (Moment × Report)}

namespace Replays

theorem append (h : Replays stored log stored') (h' : Replays stored' log' stored'') :
    Replays stored (log ++ log') stored'' := by
  induction h with
  | nil => exact h'
  | cons hm _ ih => exact .cons hm (ih h')

theorem split (h : Replays stored (log ++ log') stored'') :
    ∃ stored', Replays stored log stored' ∧ Replays stored' log' stored'' := by
  induction log generalizing stored with
  | nil => exact ⟨stored, .nil stored, h⟩
  | cons e log ih =>
    cases h with
    | cons hm hrest =>
      obtain ⟨stored', hlog, hlog'⟩ := ih hrest
      exact ⟨stored', .cons hm hlog, hlog'⟩

theorem happens (h : Replays stored log stored') (hm : (m, r) ∈ log) :
    ∃ before behind, Happens before m r behind := by
  obtain ⟨front, back, rfl⟩ := List.append_of_mem hm
  obtain ⟨before, -, hback⟩ := h.split
  cases hback with
  | cons hm _ => exact ⟨_, _, hm⟩

end Replays

theorem choose_eq (s : Session) (c : Command) (settings : Option Settings) :
    Moment.choose ⟨s.current, c⟩ settings = s.choose settings := by
  cases settings <;> rfl

/-- A command that runs no commands of its own has one report, and stores something only under a
name that it touches. -/
theorem exec_single (s : Session) {c : Command} (hc : c.left? = none) :
    (∃ outcome, (exec s c).2 = .single outcome (c.next s.current)) ∧
      ((exec s c).1.stored = s.stored ∨
        ∃ id t, Moment.Touches id ⟨s.current, c⟩ ∧
          (exec s c).1.stored = (s.store id t).stored) := by
  match c with
  | .set settings =>
    rw [exec, choose, Command.next]
    cases settings.dialect <;> exact ⟨⟨_, rfl⟩, .inl rfl⟩
  | .reset | .get | .transpile _ _ =>
    rw [exec]
    exact ⟨⟨_, rfl⟩, .inl rfl⟩
  | .make id settings source =>
    rw [exec]
    cases hs : s.choose settings with
    | error e => exact ⟨⟨_, rfl⟩, .inl rfl⟩
    | ok chosen =>
      exact ⟨⟨_, rfl⟩, .inr ⟨id, _, ⟨rfl, chosen, (choose_eq s _ settings).trans hs⟩, rfl⟩⟩
  | .run id =>
    rw [exec, runStored]
    cases s.stored.lookup id with
    | none => exact ⟨⟨_, rfl⟩, .inl rfl⟩
    | some t => exact ⟨⟨_, rfl⟩, .inr ⟨id, _, rfl, rfl⟩⟩
  | .scoped settings raises body =>
    rw [exec, choose]
    cases hd : settings.dialect with
    | ok d => simp [Command.left?, hd] at hc
    | error e => exact ⟨⟨_, rfl⟩, .inl rfl⟩
  | .thread body => cases hc

theorem moments_single (d : Dialect) {c : Command} (hc : c.left? = none) :
    c.moments d = [⟨d, c⟩] := by
  match c with
  | .set _ | .reset | .get | .transpile _ _ | .make _ _ _ | .run _ => simp only [Command.moments]
  | .scoped settings raises body =>
    cases hd : settings.dialect with
    | ok d => simp [Command.left?, hd] at hc
    | error e => simp only [Command.moments, hd]
  | .thread body => cases hc

/-- A log of the given moments and reports, by which the stored transpilers go from one state to
another. -/
def Recorded (stored : List (String × Transpiler)) (moments : List Moment) (reports : List Report)
    (stored' : List (String × Transpiler)) : Prop :=
  ∃ log : List (Moment × Report), log.map Prod.fst = moments ∧ log.map Prod.snd = reports ∧
    Replays stored log stored'

theorem Recorded.append {ms ms' : List Moment} {rs rs' : List Report}
    (h : Recorded stored ms rs stored') (h' : Recorded stored' ms' rs' stored'') :
    Recorded stored (ms ++ ms') (rs ++ rs') stored'' := by
  obtain ⟨log, rfl, rfl, hlog⟩ := h
  obtain ⟨log', rfl, rfl, hlog'⟩ := h'
  exact ⟨log ++ log', List.map_append, List.map_append, hlog.append hlog'⟩

theorem Happens.recorded (h : Happens stored m r stored') : Recorded stored [m] [r] stored' :=
  ⟨[(m, r)], rfl, rfl, .cons h (.nil _)⟩

theorem recorded_single (s : Session) {c : Command} (hc : c.left? = none) :
    Recorded s.stored (c.moments s.current) (exec s c).2.flatten (exec s c).1.stored := by
  have h : Happens s.stored ⟨s.current, c⟩ _ _ := .obeyed s.current c hc
  obtain ⟨outcome, hr⟩ := (exec_single s hc).1
  rw [moments_single _ hc, hr, Report.flatten, ← hr]
  exact h.recorded

mutual

theorem recorded_exec (s : Session) (c : Command) :
    Recorded s.stored (c.moments s.current) (exec s c).2.flatten (exec s c).1.stored := by
  match c with
  | .set _ | .reset | .get | .transpile _ _ | .make _ _ _ | .run _ => exact recorded_single s rfl
  | .scoped settings raises body =>
    cases hd : settings.dialect with
    | error e => exact recorded_single s (by simp only [Command.left?, hd])
    | ok d =>
      have hbody := recorded_execAll { s with current := d } body
      have hleft : Happens (execAll { s with current := d } body).1.stored _ _ _ :=
        .left s.current (.scoped settings raises body) (some raises)
          (by simp only [Command.left?, hd]) (execAll { s with current := d } body).2
      simp only [exec, choose_ok s hd, Command.moments, hd, Report.flatten]
      exact hbody.append hleft.recorded
  | .thread body =>
    have hbody := recorded_execAll { s with current := .standard } body
    have hleft : Happens (execAll { s with current := .standard } body).1.stored _ _ _ :=
      .left s.current (.thread body) none rfl (execAll { s with current := .standard } body).2
    simp only [exec, Command.moments, Report.flatten]
    exact hbody.append hleft.recorded

theorem recorded_execAll (s : Session) (cs : List Command) :
    Recorded s.stored (Command.momentsAll s.current cs) (Report.flattenAll (execAll s cs).2)
      (execAll s cs).1.stored := by
  match cs with
  | [] =>
    rw [execAll, Command.momentsAll, Report.flattenAll]
    exact ⟨[], rfl, rfl, .nil _⟩
  | c :: rest =>
    have hc := recorded_exec s c
    have hrest := recorded_execAll (exec s c).1 rest
    rw [exec_current] at hrest
    simp only [execAll, Command.momentsAll, Report.flattenAll]
    exact hc.append hrest

end

theorem lookup_store (s : Session) (id : String) (t : Transpiler) :
    (s.store id t).stored.lookup id = some t := by
  simp [store]

theorem lookup_store_of_ne (s : Session) {id name : String} (h : name ≠ id) (t : Transpiler) :
    (s.store name t).stored.lookup id = s.stored.lookup id := by
  have hne : (id == name) = false := by simpa using h.symm
  simp [store, List.lookup_cons, hne]

/-- A moment that does not touch a name leaves what is stored under it. -/
theorem Happens.lookup {id : String} (h : Happens stored m r stored') (hm : ¬ m.Touches id) :
    stored'.lookup id = stored.lookup id := by
  cases h with
  | left d c raised hc reports => rfl
  | obeyed d c hc =>
    rcases (exec_single ⟨d, stored⟩ hc).2 with he | ⟨name, t, ht, he⟩
    · rw [he]
    · have hne : name ≠ id := by
        rintro rfl
        exact hm ht
      rw [he, lookup_store_of_ne _ hne]

theorem Replays.lookup {id : String} (h : Replays stored log stored')
    (hlog : ∀ e ∈ log, ¬ e.1.Touches id) : stored'.lookup id = stored.lookup id := by
  induction h with
  | nil => rfl
  | cons hm _ ih =>
    rw [ih fun e he => hlog e (List.mem_cons_of_mem _ he), hm.lookup (hlog _ List.mem_cons_self)]

theorem Happens.eq_exec {d : Dialect} {c : Command} (h : Happens stored ⟨d, c⟩ r stored')
    (hc : c.left? = none) :
    r = (exec ⟨d, stored⟩ c).2 ∧ stored' = (exec ⟨d, stored⟩ c).1.stored := by
  cases h with
  | obeyed _ _ _ => exact ⟨rfl, rfl⟩
  | left _ _ raised hl reports =>
    rw [hc] at hl
    cases hl

/-- Where a transpiler is made, it is stored as new, with the dialect of that moment. -/
theorem Happens.lookup_make {d chosen : Dialect} {id source : String} {settings : Option Settings}
    (h : Happens stored ⟨d, .make id settings source⟩ r stored')
    (hs : Moment.choose ⟨d, .make id settings source⟩ settings = .ok chosen) :
    stored'.lookup id = some (.new chosen Transpiler.unnamed 1 source) := by
  have hchoose := (choose_eq ⟨d, stored⟩ _ settings).symm.trans hs
  simp only [(h.eq_exec rfl).2, exec, hchoose]
  exact lookup_store ⟨d, stored⟩ id _

theorem Happens.run_new {d chosen : Dialect} {id source : String}
    (h : Happens stored ⟨d, .run id⟩ r stored')
    (hl : stored.lookup id = some (.new chosen Transpiler.unnamed 1 source)) :
    r = .single (answer chosen source) d := by
  simp only [(h.eq_exec rfl).1, exec, runStored, hl]
  rfl

theorem Happens.current_eq (h : Happens stored m r stored') :
    r.current = m.command.next m.current := by
  cases h with
  | left d c raised hc reports =>
    match c with
    | .scoped _ _ _ | .thread _ => rfl
    | .set _ | .reset | .get | .transpile _ _ | .make _ _ _ | .run _ => cases hc
  | obeyed d c hc =>
    obtain ⟨outcome, hr⟩ := (exec_single ⟨d, stored⟩ hc).1
    rw [hr]
    rfl

/-- What a block reports, as its settings are accepted or refused. -/
theorem Happens.scoped_cases {d : Dialect} {settings : Settings} {raises : Bool}
    {body : List Command} (h : Happens stored ⟨d, .scoped settings raises body⟩ r stored') :
    (∃ inner reports, settings.dialect = .ok inner ∧ r = .block reports (some raises) d) ∨
      ∃ e, settings.dialect = .error e ∧ r = .single (.error (.settings e)) d := by
  cases h with
  | left _ _ raised hc reports =>
    cases hd : settings.dialect with
    | ok inner =>
      simp only [Command.left?, hd, Option.some.injEq] at hc
      exact .inl ⟨inner, reports, rfl, by rw [hc]⟩
    | error e => simp [Command.left?, hd] at hc
  | obeyed _ _ hc =>
    cases hd : settings.dialect with
    | ok inner => simp [Command.left?, hd] at hc
    | error e =>
      refine .inr ⟨e, rfl, ?_⟩
      simp only [exec, choose_error _ hd]

theorem Replays.lexical (h : Replays stored log stored') : Lexical log where
  after := by
    intro m r hm
    obtain ⟨before, behind, hh⟩ := h.happens hm
    exact hh.current_eq
  get := by
    intro d r hm
    obtain ⟨before, behind, hh⟩ := h.happens hm
    rw [(hh.eq_exec rfl).1, exec]
  refused := by
    intro d settings raises body r e hm hd
    obtain ⟨before, behind, hh⟩ := h.happens hm
    rcases hh.scoped_cases with ⟨inner, reports, ho, -⟩ | ⟨e', he, rfl⟩
    · rw [hd] at ho
      cases ho
    · rw [hd] at he
      cases he
      rfl
  left := by
    intro d settings raises body r inner hm hd
    obtain ⟨before, behind, hh⟩ := h.happens hm
    rcases hh.scoped_cases with ⟨inner', reports, -, rfl⟩ | ⟨e, he, -⟩
    · exact ⟨reports, rfl⟩
    · rw [hd] at he
      cases he
  explicit := by
    intro d settings source r hm
    obtain ⟨before, behind, hh⟩ := h.happens hm
    rw [(hh.eq_exec rfl).1, exec]
    rfl
  implicit := by
    intro d source r hm
    obtain ⟨before, behind, hh⟩ := h.happens hm
    rw [(hh.eq_exec rfl).1, exec]
    rfl
  captured := by
    intro before between behind id settings source d chosen made here ran hlog hs htouch
    rw [hlog] at h
    obtain ⟨_, -, h⟩ := h.split
    cases h with
    | cons hmake h =>
      obtain ⟨_, hbetween, h⟩ := h.split
      cases h with
      | cons hrun _ =>
        refine hrun.run_new ?_
        rw [hbetween.lookup htouch, hmake.lookup_make hs]

end Replay

theorem execAll_current (s : Session) (cs : List Command) :
    (execAll s cs).1.current = cs.foldl Command.next s.current := by
  induction cs generalizing s with
  | nil => rw [execAll, List.foldl_nil]
  | cons c rest ih =>
    rw [List.foldl_cons, ← exec_current, ← ih]
    simp only [execAll]

/-- The current dialect is scoped by the text of the program, in a session and in a thread with a
variable of its own. -/
theorem lexical_log (s : Session) (program : List Command) :
    Lexical (s.log program) ∧
    (s.log program).map Prod.fst = Command.momentsAll s.current program ∧
    (s.log program).map Prod.snd = Report.flattenAll (execAll s program).2 ∧
    (execAll s program).1.current = program.foldl Command.next s.current ∧
    (∀ settings raises body e, settings.dialect = .error e →
      exec s (.scoped settings raises body) = (s, .single (.error (.settings e)) s.current)) ∧
    ((Threads.alone s).obeyAll 0 program).2 = (execAll s program).2 ∧
    ((Threads.alone s).obeyAll 0 program).1.session 0 = (execAll s program).1 := by
  obtain ⟨log, hmoments, hreports, hlog⟩ := recorded_execAll s program
  have hzip : s.log program = log := (List.zip_of_prod hmoments hreports).symm
  have hthread := Threads.obeyAll_sees _ (Threads.alone_fresh s) 0 Nat.one_pos program
  rw [Threads.alone_session] at hthread
  rw [hzip]
  refine ⟨hlog.lexical, hmoments, hreports, execAll_current s program, ?_, hthread.1,
    hthread.2.session⟩
  intro settings raises body e he
  simp only [exec, choose_error s he]

/-- A transpiler that was made in a block keeps the dialect of the block in a thread behind it. -/
theorem lexical_log_thread :
    ∃ made left joined,
      log {} [.scoped (Dialect.settings { name := "styles" }) true [.make "page" none "<<b>>"],
        .thread [.run "page"]] =
      [made, left, (⟨.standard, .run "page"⟩,
        .single (.ok (.text "styles.evaluate('b')")) .standard), joined] := by
  have hd := Dialect.dialect_settings { name := "styles" }
  have hanswer : answer { name := "styles" } "<<b>>" = .ok (.text "styles.evaluate('b')") := rfl
  obtain ⟨made, left, ran, joined, hlog⟩ : ∃ made left ran joined,
      log {} [.scoped (Dialect.settings { name := "styles" }) true [.make "page" none "<<b>>"],
        .thread [.run "page"]] =
      [(⟨{ name := "styles" }, .make "page" none "<<b>>"⟩, made),
        (⟨.standard, .scoped (Dialect.settings { name := "styles" }) true
          [.make "page" none "<<b>>"]⟩, left),
        (⟨.standard, .run "page"⟩, ran), joined] := by
    simp only [log, Command.momentsAll, Command.moments, Command.next, hd, execAll, exec, choose,
      Report.flattenAll, Report.flatten]
    exact ⟨_, _, _, _, rfl⟩
  have hran := (lexical_log {} _).1.captured [] [_] [joined] "page" none "<<b>>"
    { name := "styles" } { name := "styles" } made .standard ran hlog rfl (by simp [Moment.Touches])
  rw [hlog, hran, hanswer]
  exact ⟨_, _, _, rfl⟩

end Session
end InlineSheet
