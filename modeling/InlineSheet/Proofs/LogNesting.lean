import InlineSheet.Proofs.OpenRegions
import InlineSheet.Proofs.Outcome

/-!
# The log as a record of the regions

The log says where regions open and close. A `Notice` is what one message says, and `unmatched`
reads off a list of them which regions are open behind it, without a look at the machine. Main
statement: the messages of a run are the texts of notices that are nested as regions are, and the
regions that they leave open are those that the machine has open in the end, also where the run
fails.
-/
namespace InlineSheet

/-- What a message of the log says. -/
inductive Notice where
  | opened (line : Int) (region : String) (depth : Nat)
  /-- A region closed on `line` that had opened on `since`. -/
  | closed (line : Int) (region : String) (since : Int)
  deriving DecidableEq

namespace Notice

def text (file : String) : Notice → String
  | .opened line region depth => s!"{file}:{line}: opened {region} (depth {depth})"
  | .closed line region since => s!"{file}:{line}: closed {region} opened on line {since}"

def isOpened : Notice → Bool
  | .opened _ _ _ => true
  | .closed _ _ _ => false

/-- How many regions opened. -/
def opens (ns : List Notice) : Nat := ns.countP isOpened

/-- How many regions closed. -/
def closes (ns : List Notice) : Nat := ns.countP (!isOpened ·)

/-- The open regions behind a notice, innermost first, each with the line on which it opened. -/
def settle (opened : List (String × Int)) : Notice → List (String × Int)
  | .opened line region _ => (region, line) :: opened
  | .closed _ _ _ => opened.tail

/-- The regions that opened and did not close. -/
def unmatched (ns : List Notice) : List (String × Int) := ns.foldl settle []

theorem opens_concat (ns : List Notice) (n : Notice) :
    opens (ns ++ [n]) = opens ns + if n.isOpened then 1 else 0 := by
  simp [opens, List.countP_append, List.countP_singleton]

theorem closes_concat (ns : List Notice) (n : Notice) :
    closes (ns ++ [n]) = closes ns + if n.isOpened then 0 else 1 := by
  cases n <;> simp [closes, List.countP_append, isOpened]

theorem unmatched_concat (ns : List Notice) (n : Notice) :
    unmatched (ns ++ [n]) = settle (unmatched ns) n := by
  simp [unmatched]

/-- What a notice has to say behind those before it. -/
inductive Follows (before : List Notice) : Notice → Prop
  | opened (line : Int) (depth : Nat) (hd : (depth : Int) = 1 + opens before - closes before) :
      Follows before
        (.opened line (if depth % 2 = 1 then "stylesheet expression" else "host expression") depth)
  | closed (line since : Int) (region : String)
      (hm : (unmatched before).head? = some (region, since)) (hl : since ≤ line) :
      Follows before (.closed line region since)

/-- Every notice follows from those before it. -/
def Nested (ns : List Notice) : Prop :=
  ∀ before n after, ns = before ++ n :: after → Follows before n

theorem Nested.concat {ns : List Notice} {n : Notice} (h : Nested ns) (hn : Follows ns n) :
    Nested (ns ++ [n]) :=
  forall_split_concat h hn

end Notice

/-- What the log says of an event; tokens are not logged. -/
def Event.notice? : Event → Option Notice
  | .token _ _ => none
  | .opened child depth => some (.opened child.startLine child.kind.name depth)
  | .closed child line => some (.closed line child.kind.name child.startLine)

theorem Event.message?_eq (file : String) (e : Event) :
    e.message? file = e.notice?.map (Notice.text file) := by
  cases e <;> rfl

namespace Region

/-- The regions but the root, each by its name and the line on which it opened. -/
def entitled (rs : List Region) : List (String × Int) :=
  (rs.filter (·.kind ≠ .root)).map fun r => (r.kind.name, r.startLine)

theorem entitled_cons {r : Region} (hk : r.kind ≠ .root) (below : List Region) :
    entitled (r :: below) = (r.kind.name, r.startLine) :: entitled below := by
  simp [entitled, hk]

theorem entitled_congr {r r' : Region} (hk : r'.kind = r.kind) (hs : r'.startLine = r.startLine)
    (below : List Region) : entitled (r' :: below) = entitled (r :: below) := by
  by_cases hroot : r.kind = .root
  · simp [entitled, hk, hroot]
  · rw [entitled_cons hroot, entitled_cons (hk ▸ hroot), hk, hs]

theorem Kind.child_ne_root (k : Kind) : k.child ≠ .root := by
  cases k <;> decide

theorem Kind.name_atDepth_succ (n : Nat) :
    (atDepth (n + 1)).name =
      if (n + 1) % 2 = 1 then "stylesheet expression" else "host expression" := by
  unfold atDepth
  rw [if_neg (Nat.succ_ne_zero n)]
  split <;> rfl

end Region

namespace Machine

def notices (m : Machine) : List Notice := m.trace.toList.filterMap Event.notice?

/-- The log so far fits the open regions. -/
structure Logged (m : Machine) : Prop where
  nested : Notice.Nested m.notices
  unmatched : Notice.unmatched m.notices = Region.entitled m.stack
  counts : Notice.opens m.notices = Notice.closes m.notices + m.depth

variable {d : Dialect} {m m' : Machine}

theorem notices_push {e : Event} (h : m'.trace = m.trace.push e) :
    m'.notices = m.notices ++ e.notice?.toList := by
  rw [notices, h, Array.toList_push, List.filterMap_append]
  cases he : e.notice? <;> simp [notices, he]

theorem logged_begun (d : Dialect) (source : List Char) (line : Int) :
    Logged (begun d source line) where
  nested := by
    intro before n after he
    simp [notices, begun, start] at he
  unmatched := by simp [Notice.unmatched, notices, Region.entitled, stack, begun, start]
  counts := by simp [Notice.opens, Notice.closes, notices, depth, begun, start]

theorem Logged.took (h : Logged m) (d : Delimiters) (kind : Token.Kind) (value : List Char) :
    Logged (m.took d kind value) := by
  have hsame : (m.took d kind value).notices = m.notices := by
    rw [notices_push (m := m) (e := .token m.top.kind { kind, value, line := m.cursor.line }) rfl]
    exact List.append_nil _
  refine ⟨?_, ?_, ?_⟩ <;> rw [hsame]
  · exact h.nested
  · rw [h.unmatched]
    exact (Region.entitled_congr (Region.accept_kind _ _ _) (Region.accept_startLine _ _ _) _).symm
  · exact h.counts

theorem Logged.entered (h : Logged m) (hn : Nested d m.stack) :
    Logged (m.entered d.toDelimiters) := by
  have hchild : (m.inner d.toDelimiters).kind = .atDepth (m.depth + 1) := by
    rw [Region.Kind.atDepth_succ, Machine.depth, ← hn.kind_eq]
    rfl
  have hnew : (m.entered d.toDelimiters).notices =
      m.notices ++ [.opened (m.inner d.toDelimiters).startLine
        (m.inner d.toDelimiters).kind.name (m.depth + 1)] :=
    notices_push (m := m) (e := .opened (m.inner d.toDelimiters) (m.depth + 1)) rfl
  refine ⟨?_, ?_, ?_⟩ <;> rw [hnew]
  · refine h.nested.concat ?_
    rw [hchild, Region.Kind.name_atDepth_succ]
    have hcounts := h.counts
    exact .opened _ _ (by omega)
  · have hstack : (m.entered d.toDelimiters).stack = m.inner d.toDelimiters :: m.stack := rfl
    rw [Notice.unmatched_concat, h.unmatched, hstack,
      Region.entitled_cons (Region.Kind.child_ne_root _)]
    rfl
  · have hdepth : (m.entered d.toDelimiters).depth = m.depth + 1 := rfl
    rw [Notice.opens_concat, Notice.closes_concat, h.counts, hdepth]
    rfl

/-- The line on which a region closes is the place's, and no region begins further down. -/
theorem Logged.left (h : Logged m) (hs : Region.Stacked d m.cursor.line m.stack)
    {parent : Region} {below : List Region} (hb : m.below = parent :: below) :
    Logged (m.left d parent below) := by
  have hstack : m.stack = m.top :: parent :: below := congrArg (m.top :: ·) hb
  have hroot : m.top.kind ≠ .root := by
    rw [hstack] at hs
    rw [hs.nested.1.1]
    exact Region.Kind.child_ne_root _
  have hopen : Notice.unmatched m.notices =
      (m.top.kind.name, m.top.startLine) :: Region.entitled (parent :: below) := by
    rw [h.unmatched, hstack, Region.entitled_cons hroot]
  have hline : m.top.startLine ≤
      (m.cursor.skip (m.top.kind.closer d.toDelimiters).length).line :=
    Int.le_trans (hs.current m.top List.mem_cons_self) (Cursor.line_le_skip _ _)
  have hnew : (m.left d parent below).notices = m.notices ++
      [.closed (m.cursor.skip (m.top.kind.closer d.toDelimiters).length).line m.top.kind.name
        m.top.startLine] :=
    notices_push (m := m) (e := .closed m.top _) rfl
  refine ⟨?_, ?_, ?_⟩ <;> rw [hnew]
  · refine h.nested.concat (.closed _ _ _ ?_ hline)
    rw [hopen]
    rfl
  · rw [Notice.unmatched_concat, hopen]
    exact (Region.entitled_congr (Region.fold_kind _ _ _) (Region.fold_startLine _ _ _) _).symm
  · have hdepth : m.depth = (m.left d parent below).depth + 1 := congrArg List.length hb
    rw [Notice.opens_concat, Notice.closes_concat, h.counts, hdepth]
    simp only [Notice.isOpened, Bool.false_eq_true, if_false]
    omega

theorem Move.logged (h : Move d m m') (hs : Region.Stacked d m.cursor.line m.stack)
    (hl : Logged m) : Logged m' := by
  cases h with
  | token kind value _ => exact hl.took _ kind value
  | enter c _ ho => exact hl.entered hs.nested
  | leave c _ ho he parent below hb => exact hl.left hs hb
  | text c _ ho he => exact hl.took _ .text [c]

theorem Reaches.logged {source : List Char} {line : Int} (h : Reaches (begun d source line) m) :
    Logged m :=
  (h.induct (begun_nested d source line)
    (P := fun m => Region.Stacked d m.cursor.line m.stack ∧ Logged m)
    ⟨.root d line, logged_begun d source line⟩
    fun _ _ _ hm ha => ⟨hm.acts.stacked ha.1, hm.logged ha.1 ha.2⟩).2.2

/-- Whatever a run comes to, its log fits the regions that it leaves open. -/
theorem logged_run (d : Dialect) (source : List Char) (line : Int) :
    Logged (begun d source line).run.machine := by
  obtain ⟨m, k, hp, he⟩ := exists_reaches_runFor (2 * (begun d source line).cursor.size)
    (begun_nested d source line)
  rw [run, he]
  have hl := hp.logged
  exact ⟨hl.nested, hl.unmatched, hl.counts⟩

theorem entitled_eq_nil_of_result {output : List Char} (hn : Nested d m.stack)
    (h : m.result d = .ok output) : Region.entitled m.stack = [] := by
  have hroot : m.top.kind = .root := by
    by_contra hroot
    rw [result, if_neg hroot] at h
    cases h
  have hstack : m.stack = [m.top] := congrArg (m.top :: ·) (hn.below_eq_nil hroot)
  simp [hstack, Region.entitled, hroot]

end Machine

namespace Transpiler

theorem messages_eq (t : Transpiler) :
    t.messages = t.machine.notices.map (Notice.text t.file) := by
  rw [messages, Machine.notices, List.map_filterMap]
  exact congrArg (List.filterMap · _) (funext (Event.message?_eq t.file))

/-- A first run that succeeds leaves no region open but the root. -/
theorem entitled_eq_nil_of_run {d : Dialect} {file : String} {line : Int} {source output : String}
    (h : (new d file line source).run.2 = .ok output) :
    Region.entitled (new d file line source).run.1.machine.stack = [] := by
  obtain ⟨hmachine, hanswer⟩ := run_new d file line source
  have hn : Machine.Nested d (Machine.begun d source.toList line).run.machine.stack :=
    Machine.runFor_nested _ (Machine.begun_nested d source.toList line)
  rw [hanswer, Progress.outcome] at h
  rw [hmachine]
  split at h
  · cases hresult : (Machine.begun d source.toList line).run.machine.result d with
    | ok text => exact Machine.entitled_eq_nil_of_result hn hresult
    | error failure =>
      rw [hresult] at h
      cases h
  · cases h

/-- The log of a run tells how the regions lie in each other, and which are left open. -/
theorem nested_notices (d : Dialect) (file : String) (line : Int) (source : String) :
    (new d file line source).run.1.messages =
      (new d file line source).run.1.machine.notices.map (Notice.text file) ∧
    Notice.Nested (new d file line source).run.1.machine.notices ∧
    (∀ output, (new d file line source).run.2 = .ok output →
      Notice.unmatched (new d file line source).run.1.machine.notices = []) ∧
    Notice.unmatched (new d file line source).run.1.machine.notices =
      Region.entitled (new d file line source).run.1.machine.stack := by
  have hlogged : (new d file line source).run.1.machine.Logged := by
    rw [(run_new d file line source).1]
    exact Machine.logged_run d source.toList line
  refine ⟨messages_eq _, hlogged.nested, fun output hok => ?_, hlogged.unmatched⟩
  rw [hlogged.unmatched]
  exact entitled_eq_nil_of_run hok

end Transpiler
end InlineSheet
