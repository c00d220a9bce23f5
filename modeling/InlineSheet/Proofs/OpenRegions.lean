import InlineSheet.Proofs.Brackets

/-!
# The open regions, whatever is asked of a machine

A run picks the operation that fits what comes next. `Operation` lists all that can be asked of a
machine instead, in any order and whatever comes next; an operation may fail and leave the machine
where it stands. `Stacked` says how regions can lie in each other: the root outside, then
stylesheets and host expressions by turns, with counts of open brackets that are possible and with
lines that never go back, all of one dialect. Main statement: the open regions lie so after any
operations, failed ones included, and an operation that is no whole run does no more to them than
one event can. Each operation is carried out in the dialect of the innermost region; that this is
always the dialect of the transpiler is part of the statement.
-/
namespace InlineSheet

open Event (Leads)

namespace Region

/-- The kind of a region that has `n` regions around it. -/
def Kind.atDepth (n : Nat) : Kind := if n = 0 then .root else if n % 2 = 1 then .sheet else .expr

theorem Kind.atDepth_succ (n : Nat) : atDepth (n + 1) = (atDepth n).child := by
  rcases Nat.eq_zero_or_pos n with rfl | hn
  · rfl
  · rcases Nat.mod_two_eq_zero_or_one n with hm | hm
    · have hs : (n + 1) % 2 = 1 := by omega
      simp [atDepth, hs, hm, Nat.ne_of_gt hn, child]
    · have hs : (n + 1) % 2 = 0 := by omega
      simp [atDepth, hs, hm, Nat.ne_of_gt hn, child]

theorem accept_startLine (d : Delimiters) (r : Region) (t : Token) :
    (r.accept d t).startLine = r.startLine := by
  rcases r with ⟨kind, startLine, content, openBrackets, dialect⟩
  rcases t with ⟨tkind, value, line⟩
  cases kind <;> cases tkind <;> simp only [accept, writeSpace] <;> (try split) <;> rfl

theorem fold_startLine (names : Runtime) (r : Region) (output : List Char) :
    (r.fold names output).startLine = r.startLine := by
  unfold fold
  split <;> rfl

/-- Only text in a host expression is looked at for brackets. -/
theorem accept_openBrackets_eq (d : Delimiters) {r : Region} {t : Token}
    (h : r.kind = .expr → t.kind ≠ .text) : (r.accept d t).openBrackets = r.openBrackets := by
  rcases r with ⟨kind, startLine, content, openBrackets, dialect⟩
  rcases t with ⟨tkind, value, line⟩
  cases kind <;> cases tkind <;> simp only [accept, writeSpace] <;> (try split) <;>
    first | rfl | exact absurd rfl (h rfl)

/-- The count of open brackets is one that tokens can lead to: never negative, and only a host
expression counts. -/
def Counts (r : Region) : Prop := 0 ≤ r.openBrackets ∧ (r.kind ≠ .expr → r.openBrackets = 0)

theorem Counts.accept {r : Region} (h : r.Counts) (d : Delimiters) (t : Token) :
    (r.accept d t).Counts := by
  by_cases hk : r.kind = .expr
  · refine ⟨?_, fun hne => absurd hk (by simpa using hne)⟩
    have hnonneg := h.1
    rw [accept_openBrackets d hk]
    split
    · omega
    · split <;> omega
  · unfold Counts
    rw [accept_openBrackets_eq d fun hexpr => absurd hexpr hk, accept_kind]
    exact h

theorem Counts.fold {r : Region} (h : r.Counts) (names : Runtime) (output : List Char) :
    (r.fold names output).Counts := by
  unfold Counts
  rw [fold_openBrackets, fold_kind]
  exact h

/-- Regions of the dialect `d`, innermost first, that can be open together in front of a place on
`line`. -/
structure Stacked (d : Dialect) (line : Int) (rs : List Region) : Prop where
  nested : Machine.Nested d rs
  counts : ∀ r ∈ rs, r.Counts
  /-- No region begins above the one around it. -/
  lines : rs.Pairwise fun inner outer => outer.startLine ≤ inner.startLine
  current : ∀ r ∈ rs, r.startLine ≤ line

namespace Stacked

variable {d : Dialect} {line line' : Int} {r r' : Region} {rs below : List Region}

theorem mono (h : Stacked d line rs) (hl : line ≤ line') : Stacked d line' rs :=
  ⟨h.nested, h.counts, h.lines, fun r hr => Int.le_trans (h.current r hr) hl⟩

theorem root (d : Dialect) (line : Int) :
    Stacked d line [{ kind := .root, startLine := line, dialect := d }] where
  nested := ⟨rfl, rfl⟩
  counts := by simp [Counts]
  lines := List.pairwise_singleton _ _
  current := by simp

theorem outer {parent : Region} (h : Stacked d line (r :: parent :: below)) :
    Stacked d line (parent :: below) where
  nested := h.nested.2
  counts := fun s hs => h.counts s (List.mem_cons_of_mem r hs)
  lines := h.lines.tail
  current := fun s hs => h.current s (List.mem_cons_of_mem r hs)

/-- The innermost region may change in what it has gathered and counted. -/
theorem replace (h : Stacked d line (r :: below)) (hk : r'.kind = r.kind)
    (hd : r'.dialect = r.dialect) (hs : r'.startLine = r.startLine) (hc : r'.Counts) :
    Stacked d line (r' :: below) where
  nested := h.nested.of_eq hk hd
  counts := List.forall_mem_cons.mpr ⟨hc, fun s hs => h.counts s (List.mem_cons_of_mem r hs)⟩
  lines := by
    obtain ⟨hfirst, hrest⟩ := List.pairwise_cons.mp h.lines
    refine List.pairwise_cons.mpr ⟨fun s hmem => ?_, hrest⟩
    rw [hs]
    exact hfirst s hmem
  current := by
    obtain ⟨hfirst, hrest⟩ := List.forall_mem_cons.mp h.current
    refine List.forall_mem_cons.mpr ⟨?_, hrest⟩
    rw [hs]
    exact hfirst

/-- A region opens on the line of the place. -/
theorem open_child (h : Stacked d line (r :: below)) :
    Stacked d line
      ({ kind := r.kind.child, startLine := line, dialect := r.dialect } :: r :: below) where
  nested := ⟨⟨rfl, h.nested.dialect_eq r List.mem_cons_self⟩, h.nested⟩
  counts := List.forall_mem_cons.mpr ⟨⟨Int.le_refl 0, fun _ => rfl⟩, h.counts⟩
  lines := List.pairwise_cons.mpr ⟨h.current, h.lines⟩
  current := List.forall_mem_cons.mpr ⟨Int.le_refl line, h.current⟩

/-- An event keeps the order of the open regions, if a region that opens begins on the line of the
place. -/
theorem leads {e : Event} {rs' : List Region} (h : Stacked d line rs)
    (hl : Leads d rs e rs')
    (ho : ∀ child depth, e = .opened child depth → child.startLine = line) :
    Stacked d line rs' := by
  cases hl with
  | token top below t =>
    exact h.replace (accept_kind _ _ _) (accept_dialect _ _ _) (accept_startLine _ _ _)
      ((h.counts top List.mem_cons_self).accept _ _)
  | opened top below startLine =>
    obtain rfl : startLine = line := ho _ _ rfl
    exact h.open_child
  | closed top parent below l =>
    exact h.outer.replace (fold_kind _ _ _) (fold_dialect _ _ _) (fold_startLine _ _ _)
      ((h.outer.counts parent List.mem_cons_self).fold _ _)

end Stacked
end Region

/-- The depth of a region fixes its kind. -/
theorem Machine.Nested.kind_eq {d : Dialect} {r : Region} {below : List Region}
    (h : Machine.Nested d (r :: below)) : r.kind = .atDepth below.length := by
  induction below generalizing r with
  | nil => exact h.1
  | cons parent below ih => rw [h.1.1, ih h.2, List.length_cons, Region.Kind.atDepth_succ]

theorem Machine.Nested.kinds_eq {d : Dialect} {r : Region} {below : List Region}
    (h : Machine.Nested d (r :: below)) :
    (r :: below).reverse.map Region.kind =
      (List.range (below.length + 1)).map Region.Kind.atDepth := by
  induction below generalizing r with
  | nil => exact congrArg (fun k => [k]) h.1
  | cons parent below ih =>
    rw [List.reverse_cons, List.map_append, ih h.2, List.range_succ (n := (parent :: below).length),
      List.map_append, List.map_singleton, List.map_singleton, h.kind_eq]
    rfl

theorem Cursor.line_le_skip (c : Cursor) (n : Nat) : c.line ≤ (c.skip n).line := by
  simp only [skip]
  omega

/-- What can be asked of a machine. -/
inductive Operation where
  | scanString
  | scanComment
  | scanLineComment
  | scanBlockComment
  | scanBlank
  | scanText
  /-- Opens a region, if its opening text comes next. -/
  | openChild
  /-- Closes the innermost region, if it ends here. -/
  | close
  /-- Passes over characters; a number below zero passes over none. -/
  | skip (n : Int)
  /-- Reads all that is left, if this has not been asked before. -/
  | transpile
  deriving DecidableEq

namespace Machine

/-- Does what is asked. An operation that fails leaves the machine where it then stands. -/
def perform (d : Dialect) (m : Machine) : Operation → Progress
  | .scanString => m.scanString d.toDelimiters
  | .scanComment => m.scanComment d.toDelimiters
  | .scanLineComment => m.scanLineComment d.toDelimiters
  | .scanBlockComment => m.scanBlockComment d.toDelimiters
  | .scanBlank => m.scanBlank d.toDelimiters
  | .scanText => m.scanText d.toDelimiters
  | .openChild => { machine := (m.openChild? d.toDelimiters).getD m }
  | .close => (m.close? d).getD { machine := m }
  | .skip n => { machine := m.skip n.toNat }
  | .transpile =>
    match m.transpile with
    | (machine, .ok _) => { machine }
    | (machine, .error failure) => { machine, failure := some failure }

/-- The place moves forward, and the open regions stay as they are or change as one event tells. -/
inductive Acts (d : Dialect) (m m' : Machine) : Prop
  | keeps (n : Nat) (hc : m'.cursor = m.cursor.skip n) (hs : m'.stack = m.stack)
  | leads (n : Nat) (e : Event) (hc : m'.cursor = m.cursor.skip n)
      (hl : Leads d m.stack e m'.stack)
      (ho : ∀ child depth, e = .opened child depth → child.startLine = m'.cursor.line)

variable {d : Dialect} {m m' : Machine}

theorem took_acts (d : Dialect) (m : Machine) (kind : Token.Kind) (value : List Char) :
    Acts d m (m.took d.toDelimiters kind value) :=
  .leads value.length (.token m.top.kind { kind, value, line := m.cursor.line }) rfl
    (.token m.top m.below _) nofun

theorem entered_acts (d : Dialect) (m : Machine) : Acts d m (m.entered d.toDelimiters) := by
  refine .leads _ (.opened (m.inner d.toDelimiters) (m.depth + 1)) rfl (.opened m.top m.below _) ?_
  rintro child depth ⟨⟩
  rfl

theorem left_acts (d : Dialect) {parent : Region} {below : List Region}
    (hb : m.below = parent :: below) : Acts d m (m.left d parent below) := by
  have hst : m.stack = m.top :: parent :: below := congrArg (m.top :: ·) hb
  exact .leads _ (.closed m.top m.cursor.line) rfl (hst ▸ .closed m.top parent below _) nofun

theorem Move.acts (h : Move d m m') : Acts d m m' := by
  cases h with
  | token kind value hl => exact took_acts d m kind value
  | enter c hl ho => exact entered_acts d m
  | leave c hl ho he parent below hb => exact left_acts d hb
  | text c hl ho he => exact took_acts d m .text [c]

/-- A token that is refused is passed over all the same. -/
theorem deliver_acts (d : Dialect) (m : Machine) (kind : Token.Kind) (value : List Char) :
    Acts d m (m.deliver d.toDelimiters kind value).machine := by
  by_cases hr : m.top.Refuses { kind, value, line := m.cursor.line }
  · refine .keeps value.length ?_ ?_ <;> simp only [deliver, Region.add?, skip, record, hr, if_true]
    rfl
  · have he : (m.deliver d.toDelimiters kind value).machine = m.took d.toDelimiters kind value := by
      simp only [deliver, Region.add?, skip, record, hr, if_false, took]
    rw [he]
    exact took_acts d m kind value

theorem scanString_acts (d : Dialect) (m : Machine) :
    Acts d m (m.scanString d.toDelimiters).machine := by
  unfold scanString
  dsimp only
  split
  · exact deliver_acts d m _ _
  · exact .keeps _ rfl rfl
  · exact .keeps _ rfl rfl

theorem openChild_acts (d : Dialect) (m : Machine) :
    Acts d m ((m.openChild? d.toDelimiters).getD m) := by
  rw [openChild?_eq]
  split
  · exact entered_acts d m
  · exact .keeps 0 (Cursor.skip_zero _).symm rfl

theorem close_acts (hn : Nested d m.stack) :
    Acts d m ((m.close? d).getD { machine := m }).machine := by
  by_cases he : m.top.Ends d.toDelimiters m.cursor
  · cases hb : m.below with
    | nil =>
      simp only [close?, Region.close?, he, if_true, Option.map_some, pop, hb, Option.getD_some]
      exact .keeps _ rfl (congrArg (m.top :: ·) hb.symm)
    | cons parent below =>
      rw [close?_eq_some he hb (hn.around hb).2.1]
      exact left_acts d hb
  · rw [close?_eq_none he]
    exact .keeps 0 (Cursor.skip_zero _).symm rfl

/-- All operations but a whole run are alike in this. -/
theorem perform_acts (hn : Nested d m.stack) {op : Operation} (h : op ≠ .transpile) :
    Acts d m (m.perform d op).machine := by
  cases op with
  | scanString => exact scanString_acts d m
  | scanComment | scanLineComment | scanBlockComment | scanBlank | scanText =>
    exact deliver_acts d m _ _
  | openChild => exact openChild_acts d m
  | close => exact close_acts hn
  | skip n => exact .keeps n.toNat rfl rfl
  | transpile => exact absurd rfl h

theorem Acts.stacked (ha : Acts d m m') (h : Region.Stacked d m.cursor.line m.stack) :
    Region.Stacked d m'.cursor.line m'.stack := by
  cases ha with
  | keeps n hc hs =>
    rw [hs, hc]
    exact h.mono (Cursor.line_le_skip _ _)
  | leads n e hc hl ho =>
    refine Region.Stacked.leads (h.mono ?_) hl ho
    rw [hc]
    exact Cursor.line_le_skip _ _

theorem Reaches.stacked (h : Reaches m m') (hs : Region.Stacked d m.cursor.line m.stack) :
    Region.Stacked d m'.cursor.line m'.stack :=
  (h.induct hs.nested (P := fun m => Region.Stacked d m.cursor.line m.stack) hs
    fun _ _ _ hm ha => hm.acts.stacked ha).2

/-- A whole run, wherever it begins, ends in a machine that it reaches or further on in the input.
-/
theorem transpile_stacked (h : Region.Stacked d m.cursor.line m.stack) :
    Region.Stacked d m.transpile.1.cursor.line m.transpile.1.stack := by
  by_cases hspent : m.spent = true
  · simpa only [transpile, hspent, if_true] using h
  · obtain ⟨m', k, hp, he⟩ := exists_reaches_runFor (m := { m with spent := true })
      (2 * m.cursor.size) h.nested
    have hrun : m.transpile.1 = m'.skip k := by
      simp only [transpile, hspent, Bool.false_eq_true, if_false, ← he]
      split <;> rfl
    rw [hrun]
    exact (hp.stacked h).mono (Cursor.line_le_skip _ _)

theorem perform_stacked (h : Region.Stacked d m.cursor.line m.stack) (op : Operation) :
    Region.Stacked d (m.perform d op).machine.cursor.line (m.perform d op).machine.stack := by
  by_cases hop : op = .transpile
  · have he : (m.perform d op).machine = m.transpile.1 := by
      rw [hop, perform]
      split <;> simp_all
    rw [he]
    exact transpile_stacked h
  · exact (perform_acts h.nested hop).stacked h

end Machine

namespace Transpiler

def perform (t : Transpiler) (op : Operation) : Transpiler :=
  { t with machine := (t.machine.perform t.machine.top.dialect op).machine }

/-- The transpiler after some operations, one after the other. -/
def drive (t : Transpiler) (ops : List Operation) : Transpiler := ops.foldl perform t

theorem perform_stacked {d : Dialect} {t : Transpiler}
    (h : Region.Stacked d t.machine.cursor.line t.machine.stack) (op : Operation) :
    Region.Stacked d (t.perform op).machine.cursor.line (t.perform op).machine.stack := by
  rw [perform, h.nested.top_dialect]
  exact Machine.perform_stacked h op

theorem drive_stacked {d : Dialect} {t : Transpiler}
    (h : Region.Stacked d t.machine.cursor.line t.machine.stack) (ops : List Operation) :
    (t.drive ops).dialect = t.dialect ∧
      Region.Stacked d (t.drive ops).machine.cursor.line (t.drive ops).machine.stack := by
  induction ops generalizing t with
  | nil => exact ⟨rfl, h⟩
  | cons op ops ih => exact ih (t := t.perform op) (perform_stacked h op)

theorem perform_confined {d : Dialect} {t : Transpiler} (hn : Machine.Nested d t.machine.stack)
    {op : Operation} (hop : op ≠ .transpile) :
    (t.perform op).machine.stack = t.machine.stack ∨
      ∃ e, Leads d t.machine.stack e (t.perform op).machine.stack := by
  rw [perform, hn.top_dialect]
  have ha := Machine.perform_acts hn hop
  cases ha with
  | keeps n hc hs => exact .inl hs
  | leads n e hc hl ho => exact .inr ⟨e, hl⟩

/-- The open regions of a transpiler for the dialect `d` are as they should be. -/
structure InOrder (d : Dialect) (t : Transpiler) : Prop where
  dialect : t.dialect = d
  shared : ∀ r ∈ t.machine.stack, r.dialect = t.dialect
  /-- From the outside in there are the root, then stylesheets and host expressions by turns. -/
  kinds : t.machine.stack.reverse.map Region.kind =
    (List.range (t.machine.depth + 1)).map Region.Kind.atDepth
  stacked : Region.Stacked d t.machine.cursor.line t.machine.stack
  /-- What is asked next takes a token into the innermost region, opens a region in it, folds it
  into the one around it, or leaves all regions as they are. -/
  confined : ∀ op, op ≠ .transpile →
    (t.perform op).machine.stack = t.machine.stack ∨
      ∃ e, Leads d t.machine.stack e (t.perform op).machine.stack

/-- Whatever is asked of a transpiler, its open regions lie in each other as they should, and only a
whole run does more to them than one event can. -/
theorem inOrder_drive (d : Dialect) (file : String) (line : Int) (source : String)
    (ops : List Operation) : InOrder d ((new d file line source).drive ops) := by
  obtain ⟨hd, hs⟩ := drive_stacked (t := new d file line source) (.root d line) ops
  refine ⟨hd, ?_, hs.nested.kinds_eq, hs, fun op hop => perform_confined hs.nested hop⟩
  rw [hd]
  exact hs.nested.dialect_eq

end Transpiler
end InlineSheet
