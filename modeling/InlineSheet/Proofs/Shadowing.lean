import InlineSheet.Proofs.HostText
import InlineSheet.Proofs.Outcome

/-!
# Delimiters that are never seen

Literals, comments and blanks are read before any delimiter is looked for. A delimiter is shadowed if it
begins with a character that begins one of these. Main statement: no region opens at a shadowed opening
delimiter and none closes at a shadowed closing one, so that a region that cannot close makes every run
fail that opens it. Conversely, stylesheet delimiters that are not shadowed enclose an empty stylesheet,
unless a host expression opens in front of the closing one. An empty delimiter is not shadowed.
-/
namespace InlineSheet

/-- The text begins with a quote, a slash or a blank. -/
def Shadowed (mark : List Char) : Prop := ∃ c ∈ mark.head?, ¬ Plain c

instance (mark : List Char) : Decidable (Shadowed mark) :=
  inferInstanceAs (Decidable (∃ c ∈ mark.head?, ¬ Plain c))

/-- A shadowed delimiter does not stand where a delimiter is looked for. -/
theorem Shadowed.not_isPrefix {mark cs : List Char} (h : Shadowed mark) {c : Char}
    (hl : lexeme cs = .plain c) : ¬ mark <+: cs := by
  intro hp
  obtain ⟨first, hfirst, hshadow⟩ := h
  obtain ⟨tail, rfl⟩ := List.head?_eq_some_iff.mp hfirst
  obtain ⟨rest, rfl, hplain⟩ := cons_of_lexeme_plain hl
  obtain ⟨rfl, -⟩ := List.cons_prefix_cons.mp hp
  exact hshadow hplain

/-- A text that is not shadowed and not empty begins with a character that is left to the region. -/
theorem lexeme_of_not_shadowed {mark : List Char} (h : ¬ Shadowed mark) (hne : mark ≠ [])
    (rest : List Char) : ∃ c, lexeme (mark ++ rest) = .plain c := by
  obtain ⟨c, mark, rfl⟩ := List.exists_cons_of_ne_nil hne
  have hc : Plain c := by
    by_contra hc
    exact h ⟨c, rfl, hc⟩
  exact ⟨c, lexeme_plain hc.1 hc.2.1 hc.2.2 _⟩

/-- The delimiter at which a region opened or closed is not shadowed. -/
def Event.Visible (d : Delimiters) : Event → Prop
  | .token _ _ => True
  | .opened child _ => ¬ Shadowed (child.kind.opener d)
  | .closed child _ => ¬ Shadowed (child.kind.closer d)

namespace Machine

variable {d : Dialect} {m m' : Machine} {source : List Char} {line : Int}

theorem Move.visible (hm : Move d m m') :
    ∃ e : Event, m'.trace = m.trace.push e ∧ e.Visible d.toDelimiters := by
  cases hm with
  | token kind value hl => exact ⟨_, rfl, trivial⟩
  | enter c hl ho =>
    exact ⟨_, rfl, fun hs => hs.not_isPrefix hl (List.isPrefixOf_iff_prefix.mp ho)⟩
  | leave c hl ho he parent below hb =>
    exact ⟨_, rfl, fun hs => hs.not_isPrefix hl (List.isPrefixOf_iff_prefix.mp he.2.1)⟩
  | text c hl ho he => exact ⟨_, rfl, trivial⟩

theorem Reaches.visible (h : Reaches (begun d source line) m) :
    ∀ e ∈ m.trace.toList, e.Visible d.toDelimiters := by
  refine (h.induct (begun_nested d source line)
    (P := fun m => ∀ e ∈ m.trace.toList, e.Visible d.toDelimiters) nofun ?_).2
  intro a b _ hm ha e he
  obtain ⟨last, hpush, hlast⟩ := hm.visible
  rw [hpush, Array.toList_push, List.mem_append, List.mem_singleton] at he
  rcases he with he | rfl
  · exact ha e he
  · exact hlast

/-- A region of this kind is open. -/
def Holds (m : Machine) (k : Region.Kind) : Prop := ∃ r ∈ m.stack, r.kind = k

/-- No round takes off a region whose closing delimiter is shadowed. -/
theorem Move.holds (hm : Move d m m') {k : Region.Kind}
    (hs : Shadowed (k.closer d.toDelimiters)) (h : m.Holds k) : m'.Holds k := by
  obtain ⟨r, hr, hk⟩ := h
  have htook (t : Token) (hr : r ∈ m.stack) :
      ∃ r ∈ m.top.accept d.toDelimiters t :: m.below, r.kind = k := by
    rcases List.mem_cons.mp hr with rfl | hr
    · exact ⟨_, List.mem_cons_self, (Region.accept_kind _ _ _).trans hk⟩
    · exact ⟨r, List.mem_cons_of_mem _ hr, hk⟩
  cases hm with
  | token kind value hl => exact htook _ hr
  | enter c hl ho => exact ⟨r, List.mem_cons_of_mem _ hr, hk⟩
  | leave c hl ho he parent below hb =>
    have hst : m.stack = m.top :: parent :: below := congrArg (m.top :: ·) hb
    rw [hst] at hr
    rcases List.mem_cons.mp hr with rfl | hr
    · rw [← hk] at hs
      exact absurd (List.isPrefixOf_iff_prefix.mp he.2.1) (hs.not_isPrefix hl)
    · rcases List.mem_cons.mp hr with rfl | hr
      · exact ⟨_, List.mem_cons_self, (Region.fold_kind _ _ _).trans hk⟩
      · exact ⟨r, List.mem_cons_of_mem _ hr, hk⟩
  | text c hl ho he => exact htook _ hr

/-- Some region of this kind has opened. -/
def Opened (m : Machine) (k : Region.Kind) : Prop :=
  ∃ child depth, .opened child depth ∈ m.trace.toList ∧ child.kind = k

/-- Some region of this kind has closed. -/
def Closed (m : Machine) (k : Region.Kind) : Prop :=
  ∃ child line, .closed child line ∈ m.trace.toList ∧ child.kind = k

theorem Opened.of_push {e : Event} (hpush : m'.trace = m.trace.push e) {k : Region.Kind}
    (h : m'.Opened k) : m.Opened k ∨ ∃ child depth, e = .opened child depth ∧ child.kind = k := by
  obtain ⟨child, depth, hmem, hk⟩ := h
  rw [hpush, Array.toList_push, List.mem_append, List.mem_singleton] at hmem
  rcases hmem with hmem | he
  · exact .inl ⟨child, depth, hmem, hk⟩
  · exact .inr ⟨child, depth, he.symm, hk⟩

theorem Opened.of_took {kind : Token.Kind} {value : List Char} {k : Region.Kind}
    (h : (m.took d.toDelimiters kind value).Opened k) : m.Opened k := by
  rcases h.of_push (m := m) rfl with hold | ⟨_, _, he, -⟩
  · exact hold
  · cases he

/-- A kind of region that a round opens is that of the innermost region behind it. -/
theorem Move.opened (hm : Move d m m') {k : Region.Kind} (h : m'.Opened k) :
    m.Opened k ∨ m'.top.kind = k := by
  cases hm with
  | token kind value hl => exact .inl h.of_took
  | enter c hl ho =>
    rcases h.of_push (m := m) rfl with hold | ⟨_, _, he, hk⟩
    · exact .inl hold
    · cases he
      exact .inr hk
  | leave c hl ho he parent below hb =>
    rcases h.of_push (m := m) rfl with hold | ⟨_, _, he, -⟩
    · exact .inl hold
    · cases he
  | text c hl ho he => exact .inl h.of_took

theorem Reaches.holds_of_opened (h : Reaches (begun d source line) m) {k : Region.Kind}
    (hs : Shadowed (k.closer d.toDelimiters)) : m.Opened k → m.Holds k := by
  refine (h.induct (begun_nested d source line) (P := fun m => m.Opened k → m.Holds k) ?_ ?_).2
  · rintro ⟨child, depth, hmem, -⟩
    cases hmem
  · intro a b _ hm ha hb
    rcases hm.opened hb with hold | hk
    · exact hm.holds hs (ha hold)
    · exact ⟨b.top, List.mem_cons_self, hk⟩

/-- Behind the source a region that is still open is reported. -/
theorem Holds.result_eq (hn : Nested d m.stack) {k : Region.Kind} (hk : k ≠ .root) (h : m.Holds k) :
    m.result d = .error (.unclosedRegion m.top.kind m.top.startLine m.cursor.line) := by
  refine if_neg fun hroot => ?_
  obtain ⟨r, hr, rfl⟩ := h
  rw [stack, hn.below_eq_nil hroot] at hr
  rw [List.mem_singleton.mp hr] at hk
  exact hk hroot

/-- The machine is in the root and has opened nothing, and what it has written there is what it has
read. -/
structure Untouched (source : List Char) (m : Machine) : Prop extends Verbatim source m where
  unopened : ∀ k, ¬ m.Opened k

theorem untouched_begun (d : Dialect) (source : List Char) (line : Int) :
    Untouched source (begun d source line) where
  toVerbatim := verbatim_begun d source line
  unopened := by
    rintro k ⟨child, depth, hmem, -⟩
    cases hmem

theorem Untouched.took (h : Untouched source m) {kind : Token.Kind} {value : List Char}
    (hv : value <+: m.cursor.rest) {l : Lexeme} (hl : ∀ ending taken, l ≠ .broken ending taken)
    (hsplit : lexemes m.cursor.rest =
      (l, m.cursor.rest) :: lexemes (m.cursor.rest.drop value.length)) :
    Untouched source (m.took d.toDelimiters kind value) where
  toVerbatim := h.toVerbatim.took hv hl hsplit
  unopened := fun k hk => h.unopened k hk.of_took

/-- A machine that has opened nothing goes on so, or it opens a stylesheet. -/
theorem Move.untouched (hm : Move d m m') (h : Untouched source m) :
    Untouched source m' ∨ (¬ Shadowed d.sheetOpen ∧ m'.Holds .sheet) := by
  cases hm with
  | token kind value hl =>
    have hv := (admits_of_lexeme_token hl).1
    exact .inl (h.took hv (fun _ _ => Lexeme.noConfusion) (lexemes_token hl))
  | enter c hl ho =>
    have hkind : m.top.kind.child = .sheet := by
      rw [h.root]
      rfl
    rw [Region.childOpener, hkind] at ho
    refine .inr ⟨fun hs => hs.not_isPrefix hl (List.isPrefixOf_iff_prefix.mp ho), ?_⟩
    exact ⟨_, List.mem_cons_self, hkind⟩
  | leave c hl ho he parent below hb => exact absurd h.root he.1
  | text c hl ho he =>
    obtain ⟨rest, hr, -⟩ := cons_of_lexeme_plain hl
    exact .inl (h.took ⟨rest, hr.symm⟩ (fun _ _ => Lexeme.noConfusion) (lexemes_plain hl))

theorem Reaches.untouched (h : Reaches (begun d source line) m) (hs : Shadowed d.sheetOpen) :
    Untouched source m :=
  (h.induct (begun_nested d source line) (untouched_begun d source line)
    fun _ _ _ hm ha => (hm.untouched ha).resolve_right fun hb => hb.1 hs).2

/-- Where stylesheets cannot close, the first one to open stays. -/
theorem Reaches.untouched_or_holds (h : Reaches (begun d source line) m)
    (hs : Shadowed d.sheetClose) : Untouched source m ∨ m.Holds .sheet := by
  refine (h.induct (begun_nested d source line) (P := fun m => Untouched source m ∨ m.Holds .sheet)
    (.inl (untouched_begun d source line)) ?_).2
  rintro a b - hm (ha | ha)
  · exact (hm.untouched ha).imp_right And.right
  · exact .inr (hm.holds hs ha)

/-- In host text two rounds open and close a stylesheet between delimiters that are seen. -/
theorem reaches_empty_sheet (hopen : ¬ Shadowed d.sheetOpen) (hclose : ¬ Shadowed d.sheetClose)
    (hopen' : d.sheetOpen ≠ []) (hclose' : d.sheetClose ≠ [])
    (hexpr : d.sheetClose.head? ≠ some d.exprOpen) (hn : Nested d m.stack)
    (hk : m.top.kind.child = .sheet)
    {rest : List Char} (hr : m.cursor.rest = d.sheetOpen ++ (d.sheetClose ++ rest)) :
    Reaches m ((m.entered d.toDelimiters).left d m.top m.below) ∧
      ((m.entered d.toDelimiters).left d m.top m.below).cursor.rest = rest := by
  have hchild : m.top.childOpener d.toDelimiters = d.sheetOpen := by rw [Region.childOpener, hk]; rfl
  obtain ⟨c, hc⟩ := lexeme_of_not_shadowed hopen hopen' (d.sheetClose ++ rest)
  have henter : Move d m (m.entered d.toDelimiters) := by
    refine .enter c (by rw [hr, hc]) ?_
    rw [hchild, Cursor.startsWith, hr, List.isPrefixOf_iff_prefix]
    exact List.prefix_append _ _
  have hrest : (m.entered d.toDelimiters).cursor.rest = d.sheetClose ++ rest := by
    change m.cursor.rest.drop (m.top.childOpener d.toDelimiters).length = _
    rw [hchild, hr, List.drop_left]
  have hkind : (m.entered d.toDelimiters).top.kind = .sheet := hk
  obtain ⟨e, he⟩ := lexeme_of_not_shadowed hclose hclose' rest
  have hmiss : (m.entered d.toDelimiters).cursor.startsWith
      ((m.entered d.toDelimiters).top.childOpener d.toDelimiters) = false := by
    rw [← Bool.not_eq_true, Region.childOpener, hkind, Cursor.startsWith, hrest,
      List.isPrefixOf_iff_prefix]
    intro hp
    obtain ⟨first, tail, hfirst⟩ := List.exists_cons_of_ne_nil hclose'
    rw [hfirst, List.cons_append] at hp
    rw [hfirst] at hexpr
    exact hexpr (congrArg some (List.cons_prefix_cons.mp hp).1.symm)
  have hends : (m.entered d.toDelimiters).top.Ends d.toDelimiters
      (m.entered d.toDelimiters).cursor := by
    rw [Region.Ends, hkind]
    refine ⟨by decide, ?_, fun hk => ?_⟩
    · rw [Cursor.startsWith, hrest, List.isPrefixOf_iff_prefix]
      exact List.prefix_append _ _
    · cases hk
  have hleave := Move.leave e (by rw [hrest, he]) hmiss hends m.top m.below rfl hn.top_dialect
  refine ⟨.tail (.single (henter.goes hn)) (hleave.goes (henter.nested hn)), ?_⟩
  change (m.entered d.toDelimiters).cursor.rest.drop _ = rest
  rw [hkind, hrest]
  exact List.drop_left

theorem outcome_empty_sheet (hopen : ¬ Shadowed d.sheetOpen) (hclose : ¬ Shadowed d.sheetClose)
    (hopen' : d.sheetOpen ≠ []) (hclose' : d.sheetClose ≠ [])
    (hexpr : d.sheetClose.head? ≠ some d.exprOpen) (line : Int) :
    (begun d (d.sheetOpen ++ d.sheetClose) line).run.outcome d =
      .ok (d.toRuntime.evaluateCall ++ "('')".toList) := by
  have hr : (begun d (d.sheetOpen ++ d.sheetClose) line).cursor.rest =
      d.sheetOpen ++ (d.sheetClose ++ []) := by
    rw [List.append_nil]
    rfl
  obtain ⟨hp, hend⟩ :=
    reaches_empty_sheet hopen hclose hopen' hclose' hexpr (begun_nested _ _ _) rfl hr
  have hcall : d.toRuntime.evaluateCall ++ ['('] ++ ['\'', '\''] ++ [')'] =
      d.toRuntime.evaluateCall ++ "('')".toList := by simp
  rw [run_eq (.inl hopen') (begun_nested _ _ _) hp (.atEnd hend), ← hcall]
  change Except.ok (Region.write { kind := .root, startLine := line, dialect := d }
    (d.toRuntime.evaluateCall ++ ['('] ++ ['\'', '\''] ++ [')'])).content.toList = _
  rw [Region.write_toList]
  rfl

end Machine

/-- The answer is one of the two complaints about what is not closed. -/
def Transpiler.Unclosed (answer : Except Diagnostic String) : Prop :=
  ∃ diagnostic, answer = .error diagnostic ∧
    (diagnostic.category? = some .unterminatedString ∨
      diagnostic.category? = some .unterminatedRegion)

namespace Transpiler

open Machine

/-- A run leaves the events of a machine that it has reached. It fails if a region is open there, and
else, if it succeeds, it gives what is in the root. -/
theorem exists_reaches_new (d : Dialect) (hd : d.Progressive) (file : String) (line : Int)
    (source : String) :
    ∃ m, Reaches (begun d source.toList line) m ∧
      (new d file line source).run.1.machine.trace = m.trace ∧
      (∀ k, k ≠ .root → m.Holds k → Unclosed (new d file line source).run.2) ∧
      ∀ output, (new d file line source).run.2 = .ok output →
        m.cursor.rest = [] ∧ output.toList = m.top.content.toList := by
  obtain ⟨hmachine, hanswer⟩ := run_new d file line source
  rw [hmachine, hanswer]
  obtain ⟨m, hp, ⟨hr, he⟩ | ⟨ending, taken, -, he⟩⟩ := run_begun_stops hd source.toList line <;>
    rw [he]
  · refine ⟨m, hp, rfl, fun k hk hh => ?_, fun output ho => ?_⟩
    · change Unclosed (answer d file (m.result d))
      rw [hh.result_eq hp.traced.1 hk]
      exact ⟨_, rfl, .inr rfl⟩
    · change answer d file (m.result d) = _ at ho
      by_cases hroot : m.top.kind = .root
      · rw [result, if_pos hroot] at ho
        cases ho
        exact ⟨hr, by simp [Region.render, hroot]⟩
      · rw [result, if_neg hroot] at ho
        cases ho
  · refine ⟨m, hp, rfl, fun k _ _ => ?_, fun output ho => ?_⟩
    · exact ⟨_, rfl, .inl (Failure.category?_report_ending _ _ _ _)⟩
    · cases ho

/-- No region opens or closes at a delimiter that is shadowed, and a run that opens a region which cannot
close fails. Stylesheet delimiters that are seen enclose an empty stylesheet. -/
theorem run_of_shadowed (d : Dialect) (hd : d.Progressive) (file : String) (line : Int)
    (source : String) :
    (Shadowed d.sheetOpen → ∀ k, ¬ (new d file line source).run.1.machine.Opened k) ∧
    (Shadowed d.sheetClose →
      ¬ (new d file line source).run.1.machine.Closed .sheet ∧
      (∀ output, (new d file line source).run.2 = .ok output → output = source) ∧
      ∀ k, (new d file line source).run.1.machine.Opened k →
        Unclosed (new d file line source).run.2) ∧
    (Shadowed [d.exprOpen] → ¬ (new d file line source).run.1.machine.Opened .expr) ∧
    (Shadowed [d.exprClose] → (new d file line source).run.1.machine.Opened .expr →
      Unclosed (new d file line source).run.2) ∧
    (¬ Shadowed d.sheetOpen → ¬ Shadowed d.sheetClose → d.sheetOpen ≠ [] → d.sheetClose ≠ [] →
      d.sheetClose.head? ≠ some d.exprOpen →
      (new d file line (String.ofList (d.sheetOpen ++ d.sheetClose))).run.2 =
        .ok (String.ofList (d.toRuntime.evaluateCall ++ "('')".toList))) := by
  obtain ⟨m, hp, htrace, hfails, hok⟩ := exists_reaches_new d hd file line source
  have hn := hp.traced.1
  simp only [Opened, Closed, htrace]
  refine ⟨fun hs => (hp.untouched hs).unopened, fun hs => ⟨?_, ?_, ?_⟩, ?_, ?_, ?_⟩
  · rintro ⟨child, line', hmem, hk⟩
    have hvisible : ¬ Shadowed (child.kind.closer d.toDelimiters) := hp.visible _ hmem
    rw [hk] at hvisible
    exact hvisible hs
  · intro output ho
    obtain ⟨hr, hcontent⟩ := hok output ho
    rcases hp.untouched_or_holds hs with hu | hh
    · have hwritten := hu.written
      rw [hr, List.append_nil] at hwritten
      rw [← String.toList_inj, hcontent, hwritten]
    · obtain ⟨_, herror, -⟩ := hfails .sheet (by decide) hh
      rw [herror] at ho
      cases ho
  · intro k hopened
    rcases hp.untouched_or_holds hs with hu | hh
    · exact absurd hopened (hu.unopened k)
    · exact hfails .sheet (by decide) hh
  · rintro hs ⟨child, depth, hmem, hk⟩
    have hvisible : ¬ Shadowed (child.kind.opener d.toDelimiters) := hp.visible _ hmem
    rw [hk] at hvisible
    exact hvisible hs
  · intro hs hopened
    exact hfails .expr (by decide) (hp.holds_of_opened hs hopened)
  · intro hopen hclose hopen' hclose' hexpr
    rw [(run_new d file line _).2, String.toList_ofList,
      outcome_empty_sheet hopen hclose hopen' hclose' hexpr]
    rfl

/-- As a closing bracket the slash is counted, but it closes nothing. -/
theorem run_of_shadowed_slash :
    ({ exprClose := '/' } : Dialect).Progressive ∧
    (new { exprClose := '/' } "page" 1 "<<[a[b/ / >>").run.1.machine.top.openBrackets = 0 ∧
    Unclosed (new { exprClose := '/' } "page" 1 "<<[a[b/ / >>").run.2 := by
  have hd : ({ exprClose := '/' } : Dialect).Progressive := by decide
  have hopened : (new { exprClose := '/' } "page" 1 "<<[a[b/ / >>").run.1.machine.Opened .expr :=
    ⟨{ kind := .expr, dialect := { exprClose := '/' } }, 2, by decide +kernel, rfl⟩
  refine ⟨hd, by decide +kernel, ?_⟩
  exact (run_of_shadowed _ hd "page" 1 _).2.2.2.1 ⟨'/', rfl, by decide⟩ hopened

end Transpiler
end InlineSheet
