import InlineSheet.Proofs.Loop

/-!
# Recursive descent

`read` is a second way to read a source, with no stack of its own: a region reads its items in order,
calls itself where a region opens, folds in what that returns, and returns at its own end. The root
ends with the input. Main statement: a run of the machine gives exactly what the descent gives, the
same text or the same failure, wherever some stylesheet delimiter has a character.
-/
namespace InlineSheet

theorem Cursor.size_skip_lt {c : Cursor} {n : Nat} (hr : c.rest ≠ []) (hn : 0 < n) :
    (c.skip n).size < c.size := by
  have hs : 0 < c.size := List.length_pos_iff.mpr hr
  rw [Cursor.size_skip]
  omega

namespace Region.Kind

/-- Between them the two delimiters of an inner region take some input. -/
theorem delimiters_pos {d : Delimiters} (hd : d.Progressive) (k : Kind) :
    0 < (k.child.opener d).length + (k.child.closer d).length := by
  cases k with
  | sheet => exact Nat.add_pos_left Nat.one_pos _
  | root | expr =>
    simp only [child, opener, closer]
    rcases hd with h | h
    · have := List.length_pos_iff.mpr h
      omega
    · have := List.length_pos_iff.mpr h
      omega

end Region.Kind

namespace Descent

/-- A result with `n` more characters in front of those it passed over. -/
def after (n : Nat) (result : List Char × Nat) : List Char × Nat := (result.1, n + result.2)

/-- Reads a region on from `c`, where `r` is what it has gathered so far. The result is what the
region is worth to the one around it, and how many characters it passed over in front of its closing
delimiter. -/
def read (d : Dialect) (hd : d.Progressive) (r : Region) (c : Cursor) :
    Except Failure (List Char × Nat) :=
  match _hl : lexeme c.rest with
  | .nothing =>
    if r.kind = .root then .ok (r.render d.toRuntime, 0)
    else .error (.unclosedRegion r.kind r.startLine c.line)
  | .broken ending taken => .error (ending.failure (c.skip taken.length).line)
  | .token kind value =>
    (read d hd (r.accept d.toDelimiters { kind, value, line := c.line })
      (c.skip value.length)).map (after value.length)
  | .plain ch =>
    let opener := r.kind.child.opener d.toDelimiters
    let closer := r.kind.child.closer d.toDelimiters
    if c.startsWith opener then
      let start := c.skip opener.length
      match read d hd { kind := r.kind.child, startLine := start.line, dialect := d } start with
      | .error failure => .error failure
      | .ok (output, taken) =>
        let passed := opener.length + taken + closer.length
        (read d hd (r.fold d.toRuntime output) (c.skip passed)).map (after passed)
    else if r.Ends d.toDelimiters c then .ok (r.render d.toRuntime, 0)
    else
      (read d hd (r.accept d.toDelimiters { kind := .text, value := [ch], line := c.line })
        (c.skip 1)).map (after 1)
termination_by (c.size, if r.kind = .sheet then 0 else 1)
decreasing_by
  all_goals
    have hr : c.rest ≠ [] := by
      intro h
      rw [h] at _hl
      cases _hl
  · exact .left _ _ (Cursor.size_skip_lt hr
      (List.length_pos_iff.mpr (admits_of_lexeme_token _hl).2.ne_nil))
  · by_cases ho : opener = []
    · have hk := Region.Kind.child_of_opener_eq_nil ho
      have hs : c.skip opener.length = c := by rw [ho, List.length_nil, Cursor.skip_zero]
      rw [if_pos hk.1, if_neg hk.2, hs]
      exact .right _ Nat.one_pos
    · exact .left _ _ (Cursor.size_skip_lt hr (List.length_pos_iff.mpr ho))
  · have hp := Region.Kind.delimiters_pos hd r.kind
    exact .left _ _ (Cursor.size_skip_lt hr (by omega))
  · exact .left _ _ (Cursor.size_skip_lt hr Nat.one_pos)

section Items

variable {d : Dialect} {hd : d.Progressive} {r : Region} {c : Cursor}

theorem read_atEnd (hl : lexeme c.rest = .nothing) :
    read d hd r c = if r.kind = .root then .ok (r.render d.toRuntime, 0)
      else .error (.unclosedRegion r.kind r.startLine c.line) := by
  rw [read]
  split <;> simp_all

theorem read_broken {ending : Literal.Ending} {taken : List Char}
    (hl : lexeme c.rest = .broken ending taken) :
    read d hd r c = .error (ending.failure (c.skip taken.length).line) := by
  rw [read]
  split <;> simp_all

theorem read_token {kind : Token.Kind} {value : List Char}
    (hl : lexeme c.rest = .token kind value) :
    read d hd r c = (read d hd (r.accept d.toDelimiters { kind, value, line := c.line })
      (c.skip value.length)).map (after value.length) := by
  rw [read]
  split <;> simp_all

theorem read_inner_error {ch : Char} {failure : Failure} (hl : lexeme c.rest = .plain ch)
    (ho : c.startsWith (r.childOpener d.toDelimiters) = true)
    (hi : read d hd
      { kind := r.kind.child, startLine := (c.skip (r.childOpener d.toDelimiters).length).line,
        dialect := d }
      (c.skip (r.childOpener d.toDelimiters).length) = .error failure) :
    read d hd r c = .error failure := by
  unfold Region.childOpener at ho hi
  rw [read]
  split <;> simp_all

theorem read_inner_ok {ch : Char} {output : List Char} {taken : Nat}
    (hl : lexeme c.rest = .plain ch)
    (ho : c.startsWith (r.childOpener d.toDelimiters) = true)
    (hi : read d hd
      { kind := r.kind.child, startLine := (c.skip (r.childOpener d.toDelimiters).length).line,
        dialect := d }
      (c.skip (r.childOpener d.toDelimiters).length) = .ok (output, taken)) {passed : Nat}
    (hp : passed = (r.childOpener d.toDelimiters).length + taken +
      (r.kind.child.closer d.toDelimiters).length) :
    read d hd r c =
      (read d hd (r.fold d.toRuntime output) (c.skip passed)).map (after passed) := by
  unfold Region.childOpener at ho hi hp
  rw [read]
  split <;> simp_all

theorem read_ends {ch : Char} (hl : lexeme c.rest = .plain ch)
    (ho : c.startsWith (r.childOpener d.toDelimiters) = false)
    (he : r.Ends d.toDelimiters c) : read d hd r c = .ok (r.render d.toRuntime, 0) := by
  unfold Region.childOpener at ho
  rw [read]
  split <;> simp_all

theorem read_text {ch : Char} (hl : lexeme c.rest = .plain ch)
    (ho : c.startsWith (r.childOpener d.toDelimiters) = false)
    (he : ¬ r.Ends d.toDelimiters c) :
    read d hd r c = (read d hd
      (r.accept d.toDelimiters { kind := .text, value := [ch], line := c.line })
      (c.skip 1)).map (after 1) := by
  unfold Region.childOpener at ho
  rw [read]
  split <;> simp_all

end Items

open Machine

/-- The machine does with its innermost region what the descent says: it stops with a failure, ends
with the root, or goes on behind the region in the one around it. -/
def Follows (d : Dialect) (m : Machine) : Except Failure (List Char × Nat) → Prop
  | .error failure => Yields d m (.error failure)
  | .ok (output, taken) =>
    (m.top.kind = .root → Yields d m (.ok output)) ∧
    ∀ parent below, m.top.kind ≠ .root → m.below = parent :: below →
      ∃ m', Reaches m m' ∧
        m'.cursor = m.cursor.skip (taken + (m.top.kind.closer d.toDelimiters).length) ∧
        m'.top = parent.fold d.toRuntime output ∧ m'.below = below

theorem Follows.of_reaches {d : Dialect} {m m' : Machine} {n : Nat}
    {result : Except Failure (List Char × Nat)} (h : Reaches m m')
    (hc : m'.cursor = m.cursor.skip n) (hk : m'.top.kind = m.top.kind) (hb : m'.below = m.below)
    (hf : Follows d m' result) : Follows d m (result.map (after n)) := by
  cases result with
  | error failure => exact Yields.of_reaches h hf
  | ok result =>
    obtain ⟨output, taken⟩ := result
    refine ⟨fun hroot => Yields.of_reaches h (hf.1 (hk.trans hroot)), ?_⟩
    intro parent below hroot hbelow
    obtain ⟨a, ha, hca, hta, hba⟩ := hf.2 parent below (hk ▸ hroot) (hb.trans hbelow)
    refine ⟨a, h.trans ha, ?_, hta, hba⟩
    rw [hca, hc, hk, Cursor.skip_skip, Nat.add_assoc]

theorem follows_move {d : Dialect} {m m' : Machine} {n : Nat}
    {result : Except Failure (List Char × Nat)} (h : Move d m m')
    (hn : Nested d m.stack) (hc : m'.cursor = m.cursor.skip n) (hk : m'.top.kind = m.top.kind)
    (hb : m'.below = m.below) (hf : Follows d m' result) : Follows d m (result.map (after n)) :=
  Follows.of_reaches (.single (h.goes hn)) hc hk hb hf

theorem follows_atEnd {d : Dialect} {m : Machine} (hr : m.cursor.rest = []) :
    Yields d m (m.result d) :=
  ⟨m, { machine := m }, .refl, .atEnd hr, rfl⟩

theorem follows_broken {d : Dialect} {m : Machine} {ending : Literal.Ending} {taken : List Char}
    (hl : lexeme m.cursor.rest = .broken ending taken) :
    Yields d m (.error (ending.failure (m.cursor.skip taken.length).line)) :=
  ⟨m, _, .refl, stops_of_broken hl, rfl⟩

theorem inner_eq {d : Dialect} {m : Machine} (hn : Nested d m.stack) :
    m.inner d.toDelimiters =
      { kind := m.top.kind.child
        startLine := (m.cursor.skip (m.top.childOpener d.toDelimiters).length).line
        dialect := d } := by
  rw [Machine.inner, hn.top_dialect]

/-- The simulation, for a region on top of any stack. -/
theorem follows_read {d : Dialect} (hd : d.Progressive) (r : Region) (c : Cursor) :
    ∀ m : Machine, m.top = r → m.cursor = c → Nested d m.stack →
      Follows d m (read d hd r c) := by
  induction r, c using read.induct d hd with
  | case1 r c hl hk =>
    rintro m rfl rfl hn
    have hy := follows_atEnd (d := d) (lexeme_eq_nothing hl)
    rw [read_atEnd hl, if_pos hk]
    rw [result, if_pos hk] at hy
    exact ⟨fun _ => hy, fun _ _ hroot _ => absurd hk hroot⟩
  | case2 r c hl hk =>
    rintro m rfl rfl hn
    have hy := follows_atEnd (d := d) (lexeme_eq_nothing hl)
    rw [result, if_neg hk] at hy
    rw [read_atEnd hl, if_neg hk]
    exact hy
  | case3 r c ending taken hl =>
    rintro m rfl rfl hn
    rw [read_broken hl]
    exact follows_broken hl
  | case4 r c kind value hl ih =>
    rintro m rfl rfl hn
    have hm : Move d m _ := .token kind value hl
    rw [read_token hl]
    exact follows_move hm hn rfl (Region.accept_kind _ _ _) rfl (ih _ rfl rfl (hm.nested hn))
  | case5 r c ch hl opener ho start failure hi ih =>
    rintro m rfl rfl hn
    have hm : Move d m _ := .enter ch hl ho
    have hf := ih (m.entered d.toDelimiters) (inner_eq hn) rfl (hm.nested hn)
    rw [hi] at hf
    rw [read_inner_error hl ho hi]
    exact Yields.of_reaches (.single (hm.goes hn)) hf
  | case6 r c ch hl opener closer ho start output taken hi passed ih ihrest =>
    rintro m rfl rfl hn
    have hm : Move d m _ := .enter ch hl ho
    have hf := ih (m.entered d.toDelimiters) (inner_eq hn) rfl (hm.nested hn)
    rw [hi] at hf
    have hroot : (m.entered d.toDelimiters).top.kind ≠ .root := by
      change m.top.kind.child ≠ .root
      cases m.top.kind <;> decide
    obtain ⟨a, ha, hca, hta, hba⟩ := hf.2 m.top m.below hroot rfl
    have hpath : Reaches m a := .head (hm.goes hn) ha
    have hcur : a.cursor = m.cursor.skip passed := by
      rw [hca, entered, Cursor.skip_skip, ← Nat.add_assoc]
      rfl
    rw [read_inner_ok hl ho hi rfl]
    exact Follows.of_reaches hpath hcur (by rw [hta, Region.fold_kind]) hba
      (ihrest a hta hcur (hpath.nested hn))
  | case7 r c ch hl opener ho he =>
    rintro m rfl rfl hn
    have ho' : m.cursor.startsWith (m.top.childOpener d.toDelimiters) = false :=
      Bool.eq_false_iff.mpr ho
    rw [read_ends hl ho' he]
    refine ⟨fun hroot => absurd hroot he.1, ?_⟩
    intro parent below _ hb
    have hm : Move d m _ := .leave ch hl ho' he parent below hb (hn.around hb).2.1
    exact ⟨_, .single (hm.goes hn), by rw [Nat.zero_add]; rfl, rfl, rfl⟩
  | case8 r c ch hl opener ho he ih =>
    rintro m rfl rfl hn
    have ho' : m.cursor.startsWith (m.top.childOpener d.toDelimiters) = false :=
      Bool.eq_false_iff.mpr ho
    have hm : Move d m _ := .text ch hl ho' he
    rw [read_text hl ho' he]
    exact follows_move hm hn rfl (Region.accept_kind _ _ _) rfl (ih _ rfl rfl (hm.nested hn))

def region (d : Dialect) (hd : d.Progressive) (kind : Region.Kind) (rest : List Char) (line : Int) :
    Except Failure (List Char × Nat) :=
  read d hd { kind, startLine := line, dialect := d } (.ofList rest line)

/-- The descent as a caller sees it: the worth of the root, or the report of a failure. -/
def transpile (d : Dialect) (hd : d.Progressive) (file : String) (line : Int) (source : String) :
    Except Diagnostic String :=
  match region d hd .root source.toList line with
  | .ok (output, _) => .ok (String.ofList output)
  | .error failure => .error (failure.report d.toDelimiters file)

theorem run_begun {d : Dialect} (hd : d.Progressive) (source : List Char) (line : Int) :
    (begun d source line).run.outcome d = (region d hd .root source line).map Prod.fst := by
  have hn := begun_nested d source line
  have hf := follows_read hd _ _ (begun d source line) rfl rfl hn
  have hy : Yields d (begun d source line) ((region d hd .root source line).map Prod.fst) := by
    unfold region
    change Follows d _ (read d hd { kind := .root, startLine := line, dialect := d }
      (.ofList source line)) at hf
    cases hr : read d hd { kind := .root, startLine := line, dialect := d }
      (.ofList source line) with
    | error failure =>
      rw [hr] at hf
      exact hf
    | ok result =>
      rw [hr] at hf
      exact hf.1 rfl
  obtain ⟨m', p, hp, hs, ho⟩ := hy
  rw [run_eq hd hn hp hs, ho]

end Descent

end InlineSheet
