import InlineSheet.Session
import Mathlib.Logic.Function.Basic

/-!
# Threads

A session has one current dialect, which blocks and threads put back. Here the current dialect is a
variable that has a value of its own in each thread: a thread that has never set it finds the
standard dialect, and a block writes back what it has read in front. Main statement: a thread that
obeys a command sees the session go on as `Session.exec` has it, and no other thread sees anything
but the transpilers that were stored.
-/
namespace InlineSheet

namespace Session

theorem choose_ok (s : Session) {settings : Settings} {d : Dialect}
    (h : settings.dialect = .ok d) : s.choose (some settings) = .ok d := by
  rw [choose, h]
  rfl

theorem choose_error (s : Session) {settings : Settings} {e : Settings.Error}
    (h : settings.dialect = .error e) : s.choose (some settings) = .error (.settings e) := by
  rw [choose, h]
  rfl

/-- The dialect that is current behind a command, if `d` is in front of it. -/
def Command.next (d : Dialect) : Command → Dialect
  | .set settings =>
    match settings.dialect with
    | .ok chosen => chosen
    | .error _ => d
  | .reset => .standard
  | _ => d

theorem exec_current (s : Session) (c : Command) : (exec s c).1.current = c.next s.current := by
  match c with
  | .set settings =>
    rw [exec, choose, Command.next]
    cases settings.dialect <;> rfl
  | .reset => rw [exec, Command.next]
  | .get | .transpile _ _ | .thread _ => rw [exec]; rfl
  | .make id settings source =>
    rw [exec]
    cases s.choose settings <;> rfl
  | .run id =>
    rw [exec, runStored]
    cases s.stored.lookup id <;> rfl
  | .scoped settings raises body =>
    rw [exec, choose]
    cases settings.dialect <;> rfl

end Session

/-- The current dialect of each thread, and the transpilers that all of them share. -/
structure Threads where
  /-- What a thread has set, by its number. -/
  own : Nat → Option Dialect := fun _ => none
  /-- How many threads there have been. They are numbered as they start. -/
  started : Nat := 1
  stored : List (String × Transpiler) := []

namespace Threads

open Session

def current (w : Threads) (t : Nat) : Dialect := (w.own t).getD .standard

def set (w : Threads) (t : Nat) (d : Dialect) : Threads :=
  { w with own := Function.update w.own t (some d) }

/-- What a thread sees. -/
def session (w : Threads) (t : Nat) : Session where
  current := w.current t
  stored := w.stored

mutual

/-- One command, obeyed by a thread. -/
def obey (w : Threads) (t : Nat) : Command → Threads × Report
  | .set settings =>
    match settings.dialect with
    | .ok d => (w.set t d, .single (.ok .nothing) ((w.set t d).current t))
    | .error e => (w, .single (.error (.settings e)) (w.current t))
  | .reset => (w.set t .standard, .single (.ok .nothing) ((w.set t .standard).current t))
  | .scoped settings raises body =>
    match settings.dialect with
    | .ok d =>
      let (inside, reports) := obeyAll (w.set t d) t body
      let after := inside.set t (w.current t)
      (after, .block reports (some raises) (after.current t))
    | .error e => (w, .single (.error (.settings e)) (w.current t))
  | .thread body =>
    let (after, reports) := obeyAll { w with started := w.started + 1 } w.started body
    (after, .block reports none (after.current t))
  | command =>
    let (s, report) := exec (w.session t) command
    ({ w with stored := s.stored }, report)

def obeyAll (w : Threads) (t : Nat) : List Command → Threads × List Report
  | [] => (w, [])
  | command :: rest =>
    let (w, report) := obey w t command
    let (w, reports) := obeyAll w t rest
    (w, report :: reports)

end

/-- No thread has set anything before it starts. -/
def Fresh (w : Threads) : Prop := ∀ u, w.started ≤ u → w.own u = none

@[simp] theorem set_current (w : Threads) (t : Nat) (d : Dialect) : (w.set t d).current t = d := by
  simp [set, current]

theorem set_own_of_ne (w : Threads) {t u : Nat} (h : u ≠ t) (d : Dialect) :
    (w.set t d).own u = w.own u := by
  simp [set, h]

theorem current_congr {w w' : Threads} {t : Nat} (h : w'.own t = w.own t) :
    w'.current t = w.current t := by
  rw [current, h, current]

theorem set_session (w : Threads) (t : Nat) (d : Dialect) :
    (w.set t d).session t = { w.session t with current := d } := by
  rw [session, set_current]
  rfl

theorem Fresh.set {w : Threads} (h : w.Fresh) {t : Nat} (ht : t < w.started) (d : Dialect) :
    (w.set t d).Fresh := fun u hu => by
  rw [set_own_of_ne w (Nat.ne_of_gt (Nat.lt_of_lt_of_le ht hu)), h u hu]

/-- Thread `t` has come from `w` to `w'`, where it sees `s`; the others that had started find the
variable as it was. -/
structure Sees (w : Threads) (t : Nat) (s : Session) (w' : Threads) : Prop where
  session : w'.session t = s
  others : ∀ u < w.started, u ≠ t → w'.own u = w.own u
  started : w.started ≤ w'.started
  fresh : w'.Fresh

namespace Sees

variable {w w' : Threads} {t : Nat} {s : Session}

theorem set (hw : w.Fresh) (ht : t < w.started) (d : Dialect) :
    Sees w t { w.session t with current := d } (w.set t d) where
  session := set_session w t d
  others := fun _ _ hne => set_own_of_ne w hne d
  started := Nat.le_refl _
  fresh := hw.set ht d

theorem same (hw : w.Fresh) : Sees w t (w.session t) w where
  session := rfl
  others := fun _ _ _ => rfl
  started := Nat.le_refl _
  fresh := hw

theorem store (hw : w.Fresh) (hs : s.current = w.current t) :
    Sees w t s { w with stored := s.stored } where
  session := by
    obtain ⟨d, stored⟩ := s
    cases hs
    rfl
  others := fun _ _ _ => rfl
  started := Nat.le_refl _
  fresh := hw

/-- A command that only reads the current dialect is obeyed as in a session. -/
theorem of_exec (hw : w.Fresh) {c : Command} (hc : c.next (w.current t) = w.current t)
    (h : w.obey t c =
      ({ w with stored := (exec (w.session t) c).1.stored }, (exec (w.session t) c).2)) :
    (w.obey t c).2 = (exec (w.session t) c).2 ∧
      Sees w t (exec (w.session t) c).1 (w.obey t c).1 := by
  rw [h]
  exact ⟨rfl, .store hw ((exec_current _ c).trans hc)⟩

theorem trans {w'' : Threads} {s' : Session} (h : Sees w t s w') (h' : Sees w' t s' w'') :
    Sees w t s' w'' where
  session := h'.session
  others := fun u hu hne => by
    rw [h'.others u (Nat.lt_of_lt_of_le hu h.started) hne, h.others u hu hne]
  started := Nat.le_trans h.started h'.started
  fresh := h'.fresh

/-- What another thread has done ends with it, but for the stored transpilers. -/
theorem join (ht : t < w.started)
    (h : Sees { w with started := w.started + 1 } w.started s w') :
    Sees w t { s with current := w.current t } w' where
  session := by
    have hown := h.others t (Nat.lt_succ_of_lt ht) (Nat.ne_of_lt ht)
    have hstored : w'.stored = s.stored := congrArg Session.stored h.session
    rw [Threads.session, current_congr hown, hstored]
    rfl
  others := fun u hu _ => h.others u (Nat.lt_succ_of_lt hu) (Nat.ne_of_lt hu)
  started := Nat.le_of_succ_le h.started
  fresh := h.fresh

end Sees

mutual

theorem obey_sees (w : Threads) (hw : w.Fresh) (t : Nat) (ht : t < w.started) (c : Command) :
    (w.obey t c).2 = (exec (w.session t) c).2 ∧
      Sees w t (exec (w.session t) c).1 (w.obey t c).1 := by
  match c with
  | .set settings =>
    rw [obey, exec, choose]
    cases settings.dialect with
    | ok d => exact ⟨congrArg (Report.single _) (set_current w t d), .set hw ht d⟩
    | error e => exact ⟨rfl, .same hw⟩
  | .reset =>
    rw [obey, exec]
    exact ⟨by simp, .set hw ht .standard⟩
  | .get => exact Sees.of_exec hw rfl (by simp only [obey])
  | .transpile settings source => exact Sees.of_exec hw rfl (by simp only [obey])
  | .make id settings source => exact Sees.of_exec hw rfl (by simp only [obey])
  | .run id => exact Sees.of_exec hw rfl (by simp only [obey])
  | .scoped settings raises body =>
    rw [obey, exec, choose]
    cases settings.dialect with
    | error e => exact ⟨rfl, .same hw⟩
    | ok d =>
      obtain ⟨hreports, hsees⟩ := obeyAll_sees (w.set t d) (hw.set ht d) t ht body
      rw [set_session] at hreports hsees
      have hback := Sees.set hsees.fresh (Nat.lt_of_lt_of_le ht hsees.started) (w.current t)
      rw [hsees.session] at hback
      refine ⟨?_, ((Sees.set hw ht d).trans hsees).trans hback⟩
      simp only [set_current, hreports]
      rfl
  | .thread body =>
    rw [obey, exec]
    have hnew : Fresh { w with started := w.started + 1 } := fun u hu =>
      hw u (Nat.le_of_succ_le hu)
    obtain ⟨hreports, hsees⟩ := obeyAll_sees _ hnew w.started (Nat.lt_succ_self _) body
    have hstart : session { w with started := w.started + 1 } w.started =
        { w.session t with current := .standard } := by
      rw [session, current, hw w.started (Nat.le_refl _)]
      rfl
    rw [hstart] at hreports hsees
    have hjoin := hsees.join ht
    refine ⟨?_, hjoin⟩
    have hcurrent := congrArg Session.current hjoin.session
    simp only [hreports]
    exact congrArg _ hcurrent

theorem obeyAll_sees (w : Threads) (hw : w.Fresh) (t : Nat) (ht : t < w.started)
    (cs : List Command) :
    (w.obeyAll t cs).2 = (execAll (w.session t) cs).2 ∧
      Sees w t (execAll (w.session t) cs).1 (w.obeyAll t cs).1 := by
  match cs with
  | [] =>
    rw [obeyAll, execAll]
    exact ⟨rfl, .same hw⟩
  | c :: rest =>
    obtain ⟨hreport, hsees⟩ := obey_sees w hw t ht c
    obtain ⟨hreports, hrest⟩ := obeyAll_sees (w.obey t c).1 hsees.fresh t
      (Nat.lt_of_lt_of_le ht hsees.started) rest
    rw [hsees.session] at hreports hrest
    rw [obeyAll, execAll]
    exact ⟨congrArg₂ List.cons hreport hreports, hsees.trans hrest⟩

end

/-- A single thread, which sees the given session. -/
def alone (s : Session) : Threads := set { stored := s.stored } 0 s.current

theorem alone_fresh (s : Session) : (alone s).Fresh :=
  Fresh.set (fun _ _ => rfl) Nat.one_pos s.current

theorem alone_session (s : Session) : (alone s).session 0 = s := set_session _ 0 s.current

end Threads
end InlineSheet
