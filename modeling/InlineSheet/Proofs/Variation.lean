import InlineSheet.Proofs.Lockstep
import InlineSheet.Proofs.Outcome
import InlineSheet.Proofs.Trimming

/-!
# Runs that differ in one place

Two machines stand in front of the same text, `k` lines apart. Their open regions are the same but
for one, which has gathered `p` in the one machine where it has gathered `q` in the other; regions
that opened since lie `k` lines apart as well. `Machine.Variant` says this, and every action keeps
it: where the region closes, its difference passes to the one around it. Main statement: the two
runs do the same and end alike, with `p` in the one output where `q` is in the other.
-/
namespace InlineSheet

namespace Text

/-- Texts that look alike to whoever cares for blanks only. -/
def Exchangeable (p q : List Char) : Prop := (p = [] ∧ q = []) ∨ (Solid p ∧ Solid q)

theorem Exchangeable.getLast? {p q : List Char} (h : Exchangeable p q) (front : List Char) :
    (front ++ p).getLast? = some ' ' ↔ (front ++ q).getLast? = some ' ' := by
  rcases h with ⟨rfl, rfl⟩ | ⟨hp, hq⟩
  · rfl
  · have hsolid {cs : List Char} (hs : Solid cs) : (front ++ cs).getLast? ≠ some ' ' := by
      obtain ⟨c, hc, hb⟩ := hs.2
      rw [List.getLast?_append, Option.mem_def.mp hc]
      rintro he
      obtain rfl : c = ' ' := by simpa using he
      exact absurd hb (by decide)
    exact iff_of_false (hsolid hp) (hsolid hq)

/-- Two texts stay exchangeable parts of what is trimmed. -/
theorem Exchangeable.trim {p q : List Char} (h : Exchangeable p q) (front back : List Char) :
    ∃ front' back', Text.trim (front ++ p ++ back) = front' ++ p ++ back' ∧
      Text.trim (front ++ q ++ back) = front' ++ q ++ back' := by
  rcases h with ⟨rfl, rfl⟩ | ⟨hp, hq⟩
  · exact ⟨Text.trim (front ++ back), [], by simp, by simp⟩
  · exact ⟨_, _, trim_append_solid hp front back, trim_append_solid hq front back⟩

end Text

namespace Region

/-- The region `k` lines further down. -/
def moved (k : Int) (r : Region) : Region := { r with startLine := r.startLine + k }

theorem writeSpace_moved (k : Int) (r : Region) :
    (r.moved k).writeSpace = r.writeSpace.moved k := by
  unfold writeSpace
  by_cases hlast : r.content.last? = some ' '
  · rw [if_pos hlast, if_pos (show (r.moved k).content.last? = some ' ' from hlast)]
  · rw [if_neg hlast, if_neg (show ¬ (r.moved k).content.last? = some ' ' from hlast)]
    rfl

theorem accept_moved (d : Delimiters) (k : Int) (r : Region) (kind : Token.Kind) (value : List Char)
    (line line' : Int) :
    (r.moved k).accept d { kind, value, line := line' } =
      (r.accept d { kind, value, line }).moved k := by
  rcases r with ⟨rkind, startLine, content, openBrackets, dialect⟩
  cases kind with
  | whitespace =>
    cases rkind with
    | root => rfl
    | sheet | expr => exact writeSpace_moved k _
  | comment | string | text => cases rkind <;> rfl

theorem fold_moved (names : Runtime) (k : Int) (r : Region) (output : List Char) :
    (r.moved k).fold names output = (r.fold names output).moved k := by
  rcases r with ⟨rkind, startLine, content, openBrackets, dialect⟩
  cases rkind <;> rfl

/-- What is folded in is written with a text before it and one behind it. -/
theorem exists_fold_eq_write (names : Runtime) (r : Region) :
    ∃ before behind, ∀ output, r.fold names output = r.write (before ++ output ++ behind) := by
  cases hk : r.kind with
  | sheet => exact ⟨[], [], fun output => by simp [fold, hk]⟩
  | root | expr => exact ⟨names.evaluateCall ++ ['('], [')'], fun output => by simp [fold, hk]⟩

/-- Two regions that are the same, but that one has gathered `p` where the other has gathered `q`.
Of the root nothing else matters; there it may also be known what stands before these texts, and
this is then the `lead`. -/
structure Variant (lead : Option (List Char)) (p q : List Char) (r s : Region) : Prop where
  kind : s.kind = r.kind
  dialect : s.dialect = r.dialect
  inner : r.kind ≠ .root →
    s.startLine = r.startLine ∧ s.openBrackets = r.openBrackets ∧ Text.Exchangeable p q
  content : ∃ front back, (∀ known ∈ lead, r.kind = .root ∧ front = known) ∧
    r.content.toList = front ++ p ++ back ∧ s.content.toList = front ++ q ++ back

namespace Variant

theorem refl (r : Region) : Variant none [] [] r r where
  kind := rfl
  dialect := rfl
  inner := fun _ => ⟨rfl, rfl, .inl ⟨rfl, rfl⟩⟩
  content := ⟨r.content.toList, [], nofun, by simp, by simp⟩

variable {lead : Option (List Char)} {p q : List Char} {r s : Region}

theorem write (h : Variant lead p q r s) (cs : List Char) :
    Variant lead p q (r.write cs) (s.write cs) where
  kind := h.kind
  dialect := h.dialect
  inner := h.inner
  content := by
    obtain ⟨front, back, hlead, hr, hs⟩ := h.content
    refine ⟨front, back ++ cs, hlead, ?_, ?_⟩
    · rw [write_toList, hr]
      simp
    · rw [write_toList, hs]
      simp

/-- Only in the root can it be known what stands before the difference. -/
theorem lead_eq_none (h : Variant lead p q r s) (hk : r.kind ≠ .root) : lead = none := by
  obtain ⟨_, _, hlead, -⟩ := h.content
  exact Option.eq_none_iff_forall_not_mem.mpr fun known hknown => hk (hlead known hknown).1

theorem last?_iff (h : Variant lead p q r s) (hk : r.kind ≠ .root) :
    s.content.last? = some ' ' ↔ r.content.last? = some ' ' := by
  obtain ⟨front, back, -, hr, hs⟩ := h.content
  have hx := (h.inner hk).2.2.getLast? front
  have hlast (text : List Char) : (text ++ back).getLast? = back.getLast?.or text.getLast? :=
    List.getLast?_append
  rw [Buffer.last?_eq_getLast?, Buffer.last?_eq_getLast?, hr, hs, hlast, hlast]
  cases back.getLast? with
  | none => exact hx.symm
  | some c => rfl

theorem writeSpace (h : Variant lead p q r s) (hk : r.kind ≠ .root) :
    Variant lead p q r.writeSpace s.writeSpace := by
  unfold Region.writeSpace
  by_cases hlast : r.content.last? = some ' '
  · rw [if_pos hlast, if_pos ((h.last?_iff hk).mpr hlast)]
    exact h
  · rw [if_neg hlast, if_neg (mt (h.last?_iff hk).mp hlast)]
    exact h.write [' ']

theorem accept (h : Variant lead p q r s) (d : Delimiters) (kind : Token.Kind) (value : List Char)
    (line line' : Int) :
    Variant lead p q (r.accept d { kind, value, line })
      (s.accept d { kind, value, line := line' }) := by
  have hkind := h.kind
  cases hk : r.kind with
  | root =>
    rw [hk] at hkind
    simp only [Region.accept, hk, hkind]
    exact h.write value
  | sheet =>
    have hroot : r.kind ≠ .root := by rw [hk]; decide
    rw [hk] at hkind
    cases kind with
    | comment => simpa only [Region.accept, hk, hkind] using h
    | whitespace => simpa only [Region.accept, hk, hkind] using h.writeSpace hroot
    | string => simpa only [Region.accept, hk, hkind] using h.write _
    | text => simpa only [Region.accept, hk, hkind] using h.write _
  | expr =>
    have hroot : r.kind ≠ .root := by rw [hk]; decide
    rw [hk] at hkind
    cases kind with
    | comment => simpa only [Region.accept, hk, hkind] using h
    | whitespace => simpa only [Region.accept, hk, hkind] using h.writeSpace hroot
    | string => simpa only [Region.accept, hk, hkind] using h.write _
    | text =>
      obtain ⟨hstart, hopen, hx⟩ := h.inner hroot
      simp only [Region.accept, hk, hkind]
      refine ⟨h.kind, h.dialect, fun _ => ⟨hstart, ?_, hx⟩, (h.write value).content⟩
      simp only [bracketsAfter, hopen]

theorem fold (h : Variant lead p q r s) (names : Runtime) (output : List Char) :
    Variant lead p q (r.fold names output) (s.fold names output) := by
  have hkind := h.kind
  cases hk : r.kind <;> rw [hk] at hkind <;> simp only [Region.fold, hk, hkind] <;>
    exact h.write _

/-- The difference between two regions that close is one between those around them. -/
theorem fold_render (h : Variant lead p q r s) (hk : r.kind ≠ .root) (names : Runtime)
    (parent : Region) :
    Variant lead p q (parent.fold names (r.render names)) (parent.fold names (s.render names)) := by
  have hrender : ∃ front back, r.render names = front ++ p ++ back ∧
      s.render names = front ++ q ++ back := by
    obtain ⟨front, back, -, hr, hs⟩ := h.content
    have hkind := h.kind
    cases hrk : r.kind with
    | root => exact absurd hrk hk
    | sheet =>
      obtain ⟨front', back', hp, hq⟩ := (h.inner hk).2.2.trim front back
      rw [hrk] at hkind
      refine ⟨'\'' :: front', back' ++ ['\''], ?_, ?_⟩
      · simp only [render, hrk, hr, hp]
        simp
      · simp only [render, hkind, hs, hq]
        simp
    | expr =>
      rw [hrk] at hkind
      refine ⟨"' + ".toList ++ names.expressionCall ++ '(' :: front, back ++ ") + '".toList, ?_, ?_⟩
      · simp [render, hrk, hr]
      · simp [render, hkind, hs]
  obtain ⟨front, back, hp, hq⟩ := hrender
  obtain ⟨before, behind, hfold⟩ := exists_fold_eq_write names parent
  rw [hfold, hfold, hp, hq]
  refine ⟨rfl, rfl, fun _ => ⟨rfl, rfl, (h.inner hk).2.2⟩,
    parent.content.toList ++ before ++ front, back ++ behind, ?_, ?_, ?_⟩
  · intro known hknown
    rw [h.lead_eq_none hk] at hknown
    cases hknown
  · rw [write_toList]
    simp
  · rw [write_toList]
    simp

end Variant
end Region

/-- How many regions are open behind an event, of those that opened since some place. -/
def Outline.count (n : Nat) : Outline → Nat
  | .token _ _ _ => n
  | .opened _ _ => n + 1
  | .closed _ => n - 1

/-- How many of the regions that open in these events are open behind them. -/
def Outline.openSince (os : List Outline) : Nat := os.foldl count 0

theorem Outline.openSince_concat (os : List Outline) (o : Outline) :
    openSince (os ++ [o]) = count (openSince os) o := by
  simp [openSince]

namespace Machine

/-- Two stacks that are the same but for the regions on top: `n` that opened since, `k` lines apart,
and one below them that has gathered `p` where the other has gathered `q`. -/
inductive StackVariant (k : Int) (lead : Option (List Char)) (p q : List Char) :
    Nat → List Region → List Region → Prop
  | holder {r s : Region} (h : Region.Variant lead p q r s) (below : List Region) :
      StackVariant k lead p q 0 (r :: below) (s :: below)
  | newer (r : Region) {n : Nat} {rs ss : List Region} (h : StackVariant k lead p q n rs ss) :
      StackVariant k lead p q (n + 1) (r :: rs) (r.moved k :: ss)

namespace StackVariant

variable {k : Int} {lead : Option (List Char)} {p q : List Char} {n : Nat} {r s : Region}
  {rs ss : List Region}

theorem length_eq (h : StackVariant k lead p q n rs ss) : ss.length = rs.length := by
  induction h with
  | holder => rfl
  | newer r _ ih => exact congrArg (· + 1) ih

theorem top (h : StackVariant k lead p q n (r :: rs) (s :: ss)) :
    s.kind = r.kind ∧ s.dialect = r.dialect ∧
      (r.kind = .expr → s.openBrackets = r.openBrackets) := by
  cases h with
  | holder h =>
    refine ⟨h.kind, h.dialect, fun hk => (h.inner ?_).2.1⟩
    rw [hk]
    decide
  | newer _ h => exact ⟨rfl, rfl, fun _ => rfl⟩

theorem accept (h : StackVariant k lead p q n (r :: rs) (s :: ss)) (d : Delimiters)
    (kind : Token.Kind) (value : List Char) (line line' : Int) :
    StackVariant k lead p q n (r.accept d { kind, value, line } :: rs)
      (s.accept d { kind, value, line := line' } :: ss) := by
  cases h with
  | holder h => exact .holder (h.accept d kind value line line') rs
  | newer _ h =>
    rw [Region.accept_moved d k r kind value line line']
    exact .newer _ h

theorem fold (h : StackVariant k lead p q n (r :: rs) (s :: ss)) (names : Runtime)
    (output : List Char) :
    StackVariant k lead p q n (r.fold names output :: rs) (s.fold names output :: ss) := by
  cases h with
  | holder h => exact .holder (h.fold names output) rs
  | newer _ h =>
    rw [Region.fold_moved]
    exact .newer _ h

/-- The region on top closes. If none has opened since, it is the one that differs. -/
theorem leave {parent parent' : Region}
    (h : StackVariant k lead p q n (r :: parent :: rs) (s :: parent' :: ss)) (hk : r.kind ≠ .root)
    (names : Runtime) :
    StackVariant k lead p q (n - 1) (parent.fold names (r.render names) :: rs)
      (parent'.fold names (s.render names) :: ss) := by
  cases h with
  | holder h => exact .holder (h.fold_render hk names parent) rs
  | newer _ h => exact h.fold names _

end StackVariant

/-- Two machines in front of the same text, `k` lines apart, that have done the same since the
events `since` and `since'`, with stacks that differ in `p` and `q`. -/
structure Variant (k : Int) (lead : Option (List Char)) (p q : List Char)
    (since since' : List Outline) (m m' : Machine) : Prop where
  rest : m'.cursor.rest = m.cursor.rest
  line : m'.cursor.line = m.cursor.line + k
  regions : ∃ os, m.outlines = since ++ os ∧ m'.outlines = since' ++ os ∧
    StackVariant k lead p q (Outline.openSince os) m.stack m'.stack

namespace Variant

variable {k : Int} {lead : Option (List Char)} {p q : List Char} {since since' : List Outline}
  {m m' : Machine}

theorem inStep (h : Variant k lead p q since since' m m') : InStep m m' := by
  obtain ⟨os, -, -, hregions⟩ := h.regions
  obtain ⟨hkind, -, hbrackets⟩ := hregions.top
  exact ⟨h.rest, hkind, hbrackets, Nat.succ_inj.mp hregions.length_eq⟩

theorem skip_line (h : Variant k lead p q since since' m m') (n : Nat) :
    (m'.cursor.skip n).line = (m.cursor.skip n).line + k := by
  simp only [Cursor.skip, h.rest, h.line]
  omega

theorem apply (h : Variant k lead p q since since' m m') {d : Dialect} {a : Action}
    (hc : Chooses d.toDelimiters m a) (hc' : Chooses d.toDelimiters m' a) :
    Variant k lead p q since since' (m.apply d a) (m'.apply d a) := by
  have hstep := h.inStep
  have hsource : a.source d.toDelimiters m' = a.source d.toDelimiters m := by
    rw [Action.source, hstep.outline_eq, Action.source]
  obtain ⟨os, hos, hos', hregions⟩ := h.regions
  refine ⟨?_, ?_, os ++ [a.outline m], ?_, ?_, ?_⟩
  · rw [hc.cursor_apply.1, hc'.cursor_apply.1, hsource, Cursor.skip, Cursor.skip, h.rest]
  · rw [hc.cursor_apply.1, hc'.cursor_apply.1, hsource, h.skip_line]
  · rw [hc.outlines_apply, hos, List.append_assoc]
  · rw [hc'.outlines_apply, hos', hstep.outline_eq, List.append_assoc]
  · rw [Outline.openSince_concat]
    cases hc with
    | token kind value hl => exact hregions.accept d.toDelimiters kind value _ _
    | text c hl ho he => exact hregions.accept d.toDelimiters .text [c] _ _
    | enter c hl ho =>
      have hinner : m'.inner d.toDelimiters = (m.inner d.toDelimiters).moved k := by
        have hopener : m'.top.childOpener d.toDelimiters = m.top.childOpener d.toDelimiters := by
          rw [Region.childOpener, hstep.kind, Region.childOpener]
        simp only [inner, Region.moved, hstep.kind, hopener, h.skip_line, hregions.top.2.1]
      change StackVariant k lead p q _ (m.inner d.toDelimiters :: m.stack)
        (m'.inner d.toDelimiters :: m'.stack)
      rw [hinner]
      exact .newer _ hregions
    | leave c hl ho he hb =>
      obtain ⟨parent, below, hbelow⟩ := exists_below_of_depth hb
      obtain ⟨parent', below', hbelow'⟩ := exists_below_of_depth (hstep.depth ▸ hb)
      rw [apply_leave hbelow, apply_leave hbelow']
      unfold stack at hregions
      rw [hbelow, hbelow'] at hregions
      exact hregions.leave he.1 d.toRuntime

end Variant

theorem Reaches.run_eq {d : Dialect} {m m' : Machine} (h : Reaches m m') (hd : d.Progressive)
    (hn : Nested d m.stack) : m.run = m'.run := by
  obtain ⟨last, hp, hs⟩ := run_stops hd (h.nested hn)
  exact Machine.run_eq hd hn (h.trans hp) hs

end Machine

/-- The failure with `line` added to the line it stands on and `start` to the one on which its
region begins. -/
def Failure.moved (line start : Int) : Failure → Failure
  | .multiLineString l => .multiLineString (l + line)
  | .unclosedString l => .unclosedString (l + line)
  | .unclosedRegion kind s l => .unclosedRegion kind (s + start) (l + line)
  | failure => failure

/-- The diagnostic with `line` added to the line it stands on and `start` to the one on which its
region begins. -/
def Diagnostic.moved (line start : Int) : Diagnostic → Diagnostic
  | .located (.unterminatedRegion region closer s) l file =>
    .located (.unterminatedRegion region closer (s + start)) (l.map (· + line)) file
  | .located cause l file => .located cause (l.map (· + line)) file
  | diagnostic => diagnostic

theorem Failure.report_moved (d : Delimiters) (file : String) (line start : Int)
    (failure : Failure) :
    (failure.moved line start).report d file = (failure.report d file).moved line start := by
  cases failure <;> rfl

theorem Diagnostic.category?_moved (line start : Int) (diagnostic : Diagnostic) :
    (diagnostic.moved line start).category? = diagnostic.category? := by
  cases diagnostic with
  | general text => rfl
  | located cause l file => cases cause <;> rfl
  | defect text => rfl

theorem Literal.Ending.failure_add (ending : Literal.Ending) (line k start : Int) :
    ending.failure (line + k) = (ending.failure line).moved k start := by
  cases ending <;> rfl

namespace Machine

/-- Behind the input the root is left in both machines, or both have a region open. -/
theorem StackVariant.result {k : Int} {lead : Option (List Char)} {p q : List Char} {n : Nat}
    {d : Dialect} {m m' : Machine} (h : StackVariant k lead p q n m.stack m'.stack)
    (hn : Nested d m.stack) (hline : m'.cursor.line = m.cursor.line + k) :
    (∃ front back, (∀ known ∈ lead, front = known) ∧ m.result d = .ok (front ++ p ++ back) ∧
      m'.result d = .ok (front ++ q ++ back)) ∨
    ∃ failure, m.result d = .error failure ∧
      m'.result d = .error (failure.moved k (if n = 0 ∧ lead = none then 0 else k)) := by
  obtain ⟨cursor, top, below, spent, trace⟩ := m
  obtain ⟨cursor', top', below', spent', trace'⟩ := m'
  change StackVariant k lead p q n (top :: below) (top' :: below') at h
  change cursor'.line = cursor.line + k at hline
  simp only [Machine.result, h.top.1, hline]
  by_cases hroot : top.kind = .root
  · left
    rw [if_pos hroot, if_pos hroot]
    cases h with
    | holder h =>
      obtain ⟨front, back, hlead, hp, hq⟩ := h.content
      refine ⟨front, back, fun known hknown => (hlead known hknown).2, ?_, ?_⟩
      · simp only [Region.render, hroot, hp]
      · simp only [Region.render, h.kind.trans hroot, hq]
    | newer _ h =>
      have hnil : below = [] := hn.below_eq_nil hroot
      rw [hnil] at h
      cases h
  · right
    rw [if_neg hroot, if_neg hroot]
    refine ⟨_, rfl, ?_⟩
    cases h with
    | holder h =>
      obtain ⟨hstart, -, -⟩ := h.inner hroot
      simp [Failure.moved, hstart, h.lead_eq_none hroot]
    | newer _ h => simp [Failure.moved, Region.moved]

/-- The two runs go through the same events and come to the same end. -/
theorem Variant.run {k : Int} {lead : Option (List Char)} {p q : List Char}
    {since since' : List Outline} {m m' : Machine} (h : Variant k lead p q since since' m m')
    {d : Dialect} (hd : d.Progressive) (hn : Nested d m.stack) (hn' : Nested d m'.stack) :
    ∃ os, m.run.machine.outlines = since ++ os ∧ m'.run.machine.outlines = since' ++ os ∧
      ((∃ front back, (∀ known ∈ lead, front = known) ∧
        m.run.outcome d = .ok (front ++ p ++ back) ∧
        m'.run.outcome d = .ok (front ++ q ++ back)) ∨
      ∃ failure, m.run.outcome d = .error failure ∧
        m'.run.outcome d =
          .error (failure.moved k (if Outline.openSince os = 0 ∧ lead = none then 0 else k))) := by
  obtain ⟨F, hF, hpaths, hend⟩ := exists_run_family (D := fun _ : Bool => d) (i := false)
    (R := fun F => Variant k lead p q since since' (F false) (F true))
    (F := fun i => if i then m' else m) hd (fun _ => rfl)
    (fun F hF j => by
      cases j with
      | false => exact .refl _
      | true => exact hF.inStep)
    (fun F a hF hc => hF.apply (hc false) (hc true)) h
    (fun j => by
      cases j with
      | false => exact hn
      | true => exact hn')
  obtain ⟨os, hos, hos', hregions⟩ := hF.regions
  have hnF : Nested d (F false).stack := (hpaths false).nested hn
  rcases hend with hend | ⟨ending, taken, hend⟩
  · have hrun : m.run = { machine := F false } := (hend false).2
    have hrun' : m'.run = { machine := F true } := (hend true).2
    rw [hrun, hrun']
    exact ⟨os, hos, hos', hregions.result hnF hF.line⟩
  · have hrun : m.run = _ := hend false
    have hrun' : m'.run = _ := hend true
    rw [hrun, hrun']
    refine ⟨os, hos, hos', .inr ⟨_, rfl, ?_⟩⟩
    change Except.error (ending.failure ((F true).cursor.skip taken.length).line) = _
    rw [hF.skip_line, ending.failure_add]

end Machine

/-- Two sources whose runs come to machines that differ in one place are worth the same but for that
place. -/
theorem Transpiler.run_variant {d : Dialect} (hd : d.Progressive) {source source' : List Char}
    {line line' : Int} {m m' : Machine} (hm : Machine.Reaches (Machine.begun d source line) m)
    (hm' : Machine.Reaches (Machine.begun d source' line') m') {k : Int}
    {lead : Option (List Char)} {p q : List Char} {since since' : List Outline}
    (h : Machine.Variant k lead p q since since' m m') (file : String) :
    ∃ os,
      (new d file line (String.ofList source)).run.1.machine.outlines = since ++ os ∧
      (new d file line' (String.ofList source')).run.1.machine.outlines = since' ++ os ∧
      ((∃ front back, (∀ known ∈ lead, front = known) ∧
        (new d file line (String.ofList source)).run.2 = .ok (String.ofList (front ++ p ++ back)) ∧
        (new d file line' (String.ofList source')).run.2 =
          .ok (String.ofList (front ++ q ++ back))) ∨
      ∃ diagnostic, (new d file line (String.ofList source)).run.2 = .error diagnostic ∧
        (new d file line' (String.ofList source')).run.2 = .error
          (diagnostic.moved k (if Outline.openSince os = 0 ∧ lead = none then 0 else k))) := by
  obtain ⟨hmachine, hanswer⟩ := run_new d file line (String.ofList source)
  obtain ⟨hmachine', hanswer'⟩ := run_new d file line' (String.ofList source')
  have hn := Machine.begun_nested d source line
  have hn' := Machine.begun_nested d source' line'
  rw [String.toList_ofList, hm.run_eq hd hn] at hmachine hanswer
  rw [String.toList_ofList, hm'.run_eq hd hn'] at hmachine' hanswer'
  obtain ⟨os, hos, hos', hends⟩ := h.run hd (hm.nested hn) (hm'.nested hn')
  rw [hmachine, hmachine', hanswer, hanswer']
  refine ⟨os, hos, hos', ?_⟩
  rcases hends with ⟨front, back, hlead, ho, ho'⟩ | ⟨failure, ho, ho'⟩ <;> rw [ho, ho']
  · exact .inl ⟨front, back, hlead, rfl, rfl⟩
  · exact .inr ⟨_, rfl, congrArg Except.error (Failure.report_moved _ _ _ _ _)⟩

end InlineSheet
