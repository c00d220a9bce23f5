import InlineSheet.Proofs.Trace

/-!
# Machines in lockstep

What a round does is settled by the input ahead, by the kind of the innermost region and by its
open brackets. `Chooses` says which action that is, and `apply` carries it out; contents, lines and
names come in only there. Main statement: machines that agree in what settles the choice, and keep
agreeing whatever action they all carry out, make the same rounds and stop together. What they have
to agree in besides is left to each use.
-/
namespace InlineSheet

/-- An event without its lines and without what a closed region had gathered. -/
inductive Outline where
  | token (receiver : Region.Kind) (kind : Token.Kind) (value : List Char)
  | opened (kind : Region.Kind) (depth : Nat)
  | closed (kind : Region.Kind)
  deriving DecidableEq

def Event.outline : Event → Outline
  | .token receiver t => .token receiver t.kind t.value
  | .opened child depth => .opened child.kind depth
  | .closed child _ => .closed child.kind

/-- The part of the input that an event with this outline stands for. -/
def Outline.source (d : Delimiters) : Outline → List Char
  | .token _ _ value => value
  | .opened kind _ => kind.opener d
  | .closed kind => kind.closer d

namespace Machine

/-- The outlines of the events so far. -/
def outlines (m : Machine) : List Outline := m.trace.toList.map Event.outline

inductive Action where
  | take (kind : Token.Kind) (value : List Char)
  | enter
  | leave

/-- What the event will look like that an action in this machine adds. -/
def Action.outline (m : Machine) : Action → Outline
  | .take kind value => .token m.top.kind kind value
  | .enter => .opened m.top.kind.child (m.depth + 1)
  | .leave => .closed m.top.kind

/-- The text that an action in this machine passes over. -/
def Action.source (d : Delimiters) (m : Machine) (a : Action) : List Char := (a.outline m).source d

def apply (d : Dialect) (m : Machine) : Action → Machine
  | .take kind value => m.took d.toDelimiters kind value
  | .enter => m.entered d.toDelimiters
  | .leave =>
    match m.below with
    | [] => m
    | parent :: below => m.left d parent below

/-- The action that the next round takes. -/
inductive Chooses (d : Delimiters) (m : Machine) : Action → Prop
  | token (kind : Token.Kind) (value : List Char) (hl : lexeme m.cursor.rest = .token kind value) :
      Chooses d m (.take kind value)
  | enter (c : Char) (hl : lexeme m.cursor.rest = .plain c)
      (ho : m.cursor.startsWith (m.top.childOpener d) = true) : Chooses d m .enter
  | leave (c : Char) (hl : lexeme m.cursor.rest = .plain c)
      (ho : m.cursor.startsWith (m.top.childOpener d) = false) (he : m.top.Ends d m.cursor)
      (hb : 0 < m.depth) : Chooses d m .leave
  | text (c : Char) (hl : lexeme m.cursor.rest = .plain c)
      (ho : m.cursor.startsWith (m.top.childOpener d) = false) (he : ¬ m.top.Ends d m.cursor) :
      Chooses d m (.take .text [c])

theorem exists_below_of_depth {m : Machine} (h : 0 < m.depth) :
    ∃ parent below, m.below = parent :: below :=
  List.exists_cons_of_ne_nil (List.length_pos_iff.mp h)

theorem apply_leave {d : Dialect} {m : Machine} {parent : Region} {below : List Region}
    (hb : m.below = parent :: below) : m.apply d .leave = m.left d parent below := by
  simp only [apply, hb]

theorem Move.exists_chooses {d : Dialect} {m m' : Machine} (h : Move d m m') :
    ∃ a, Chooses d.toDelimiters m a ∧ m' = m.apply d a := by
  cases h with
  | token kind value hl => exact ⟨.take kind value, .token kind value hl, rfl⟩
  | enter c hl ho => exact ⟨.enter, .enter c hl ho, rfl⟩
  | leave c hl ho he parent below hb =>
    have hdepth : 0 < m.depth := by simp [depth, hb]
    exact ⟨.leave, .leave c hl ho he hdepth, (apply_leave hb).symm⟩
  | text c hl ho he => exact ⟨.take .text [c], .text c hl ho he, rfl⟩

theorem Chooses.move {d : Dialect} {m : Machine} {a : Action} (h : Chooses d.toDelimiters m a)
    (hn : Nested d m.stack) : Move d m (m.apply d a) := by
  cases h with
  | token kind value hl => exact .token kind value hl
  | enter c hl ho => exact .enter c hl ho
  | leave c hl ho he hb =>
    obtain ⟨parent, below, hbelow⟩ := exists_below_of_depth hb
    rw [apply_leave hbelow]
    exact .leave c hl ho he parent below hbelow (hn.around hbelow).2.1
  | text c hl ho he => exact .text c hl ho he

theorem Reaches.took {d : Dialect} {m m' : Machine} (h : Reaches m m') (hn : Nested d m.stack)
    {kind : Token.Kind} {value : List Char} (hl : lexeme m'.cursor.rest = .token kind value) :
    Reaches m (m'.took d.toDelimiters kind value) :=
  h.tail ((Move.token kind value hl).goes (h.nested hn))

theorem outlines_push {m m' : Machine} {e : Event} (h : m'.trace = m.trace.push e) :
    m'.outlines = m.outlines ++ [e.outline] := by
  simp [outlines, h]

theorem took_outlines (d : Delimiters) (m : Machine) (kind : Token.Kind) (value : List Char) :
    (m.took d kind value).outlines = m.outlines ++ [.token m.top.kind kind value] :=
  outlines_push (e := .token m.top.kind { kind, value, line := m.cursor.line }) rfl

theorem Chooses.outlines_apply {d : Dialect} {m : Machine} {a : Action}
    (h : Chooses d.toDelimiters m a) : (m.apply d a).outlines = m.outlines ++ [a.outline m] := by
  cases h with
  | token kind value hl => exact took_outlines _ m kind value
  | enter c hl ho =>
    exact outlines_push (e := .opened (m.inner d.toDelimiters) (m.depth + 1)) rfl
  | leave c hl ho he hb =>
    obtain ⟨parent, below, hbelow⟩ := exists_below_of_depth hb
    rw [apply_leave hbelow]
    exact outlines_push (e := .closed m.top _) rfl
  | text c hl ho he => exact took_outlines _ m .text [c]

/-- An action passes over the text that its event stands for. -/
theorem Chooses.cursor_apply {d : Dialect} {m : Machine} {a : Action}
    (h : Chooses d.toDelimiters m a) :
    (m.apply d a).cursor = m.cursor.skip (a.source d.toDelimiters m).length ∧
      a.source d.toDelimiters m <+: m.cursor.rest := by
  cases h with
  | token kind value hl => exact ⟨rfl, (admits_of_lexeme_token hl).1⟩
  | enter c hl ho => exact ⟨rfl, List.isPrefixOf_iff_prefix.mp ho⟩
  | leave c hl ho he hb =>
    obtain ⟨parent, below, hbelow⟩ := exists_below_of_depth hb
    rw [apply_leave hbelow]
    exact ⟨rfl, List.isPrefixOf_iff_prefix.mp he.2.1⟩
  | text c hl ho he =>
    obtain ⟨rest, hr, -⟩ := cons_of_lexeme_plain hl
    exact ⟨rfl, rest, hr.symm⟩

/-- Two machines agree in all that settles what a round does. -/
structure InStep (m m' : Machine) : Prop where
  rest : m'.cursor.rest = m.cursor.rest
  kind : m'.top.kind = m.top.kind
  brackets : m.top.kind = .expr → m'.top.openBrackets = m.top.openBrackets
  depth : m'.depth = m.depth

namespace InStep

variable {m m' : Machine}

theorem refl (m : Machine) : InStep m m := ⟨rfl, rfl, fun _ => rfl, rfl⟩

theorem startsWith (h : InStep m m') (delimiter : List Char) :
    m'.cursor.startsWith delimiter = m.cursor.startsWith delimiter := by
  simp only [Cursor.startsWith, h.rest]

theorem ends_iff (h : InStep m m') (d : Delimiters) :
    m'.top.Ends d m'.cursor ↔ m.top.Ends d m.cursor := by
  unfold Region.Ends
  rw [h.kind, h.startsWith]
  constructor <;> rintro ⟨hroot, hs, hb⟩ <;> refine ⟨hroot, hs, fun hk => ?_⟩
  · rw [← h.brackets hk]
    exact hb hk
  · rw [h.brackets hk]
    exact hb hk

theorem chooses (h : InStep m m') {d : Delimiters} {a : Action} (hc : Chooses d m a) :
    Chooses d m' a := by
  have hopen : m'.cursor.startsWith (m'.top.childOpener d) =
      m.cursor.startsWith (m.top.childOpener d) := by
    rw [h.startsWith, Region.childOpener, h.kind, Region.childOpener]
  cases hc with
  | token kind value hl => exact .token kind value (h.rest ▸ hl)
  | enter c hl ho => exact .enter c (h.rest ▸ hl) (hopen.trans ho)
  | leave c hl ho he hb =>
    exact .leave c (h.rest ▸ hl) (hopen.trans ho) ((h.ends_iff d).mpr he) (h.depth ▸ hb)
  | text c hl ho he =>
    exact .text c (h.rest ▸ hl) (hopen.trans ho) fun he' => he ((h.ends_iff d).mp he')

theorem outline_eq (h : InStep m m') (a : Action) : a.outline m' = a.outline m := by
  cases a <;> simp only [Action.outline, h.kind, h.depth]

end InStep

section Family

variable {ι : Type} {δ : Delimiters} {D : ι → Dialect} {R : (ι → Machine) → Prop}

/-- The machines make the rounds of the one with which they agree. -/
theorem exists_reachesIn_family (hD : ∀ i, (D i).toDelimiters = δ)
    {i : ι} (hagree : ∀ F, R F → ∀ j, InStep (F i) (F j))
    (hkeep : ∀ F a, R F → (∀ j, Chooses δ (F j) a) → R fun j => (F j).apply (D j) a)
    {F : ι → Machine} (hR : R F) (hn : ∀ j, Nested (D j) (F j).stack) {n : Nat}
    {m : Machine} (h : ReachesIn n (F i) m) :
    ∃ F', R F' ∧ F' i = m ∧ ∀ j, ReachesIn n (F j) (F' j) := by
  generalize hm : F i = first at h
  induction h generalizing F with
  | refl m => exact ⟨F, hR, hm, fun j => .refl _⟩
  | head hg hrest ih =>
    rw [← hm] at hg
    obtain ⟨a, hc, rfl⟩ := (hg.move (hn i)).exists_chooses
    rw [hD i] at hc
    have hmoves : ∀ j, Move (D j) (F j) ((F j).apply (D j) a) := by
      intro j
      have hj := (hagree F hR j).chooses hc
      rw [← hD j] at hj
      exact hj.move (hn j)
    obtain ⟨F', hR', hlast, hpaths⟩ :=
      ih (hkeep F a hR fun j => (hagree F hR j).chooses hc) (fun j => (hmoves j).nested (hn j)) rfl
    exact ⟨F', hR', hlast, fun j => .head ((hmoves j).goes (hn j)) (hpaths j)⟩

/-- The machines stop together, behind the input or at one literal that is not closed. -/
theorem exists_run_family (hδ : δ.Progressive) (hD : ∀ i, (D i).toDelimiters = δ)
    {i : ι} (hagree : ∀ F, R F → ∀ j, InStep (F i) (F j))
    (hkeep : ∀ F a, R F → (∀ j, Chooses δ (F j) a) → R fun j => (F j).apply (D j) a)
    {F : ι → Machine} (hR : R F) (hn : ∀ j, Nested (D j) (F j).stack) :
    ∃ F', R F' ∧ (∀ j, Reaches (F j) (F' j)) ∧
      ((∀ j, (F' j).cursor.rest = [] ∧ (F j).run = { machine := F' j }) ∨
        ∃ (ending : Literal.Ending) (taken : List Char), ∀ j, (F j).run =
          { machine := (F' j).skip taken.length,
            failure := some (ending.failure ((F' j).cursor.skip taken.length).line) }) := by
  have hd : ∀ j, (D j).Progressive := fun j => by
    rw [hD j]
    exact hδ
  obtain ⟨n, m, hp, hs⟩ := run_stopsIn (hd i) (hn i)
  obtain ⟨F', hR', rfl, hpaths⟩ := exists_reachesIn_family hD hagree hkeep hR hn hp
  have hrest : ∀ j, (F' j).cursor.rest = (F' i).cursor.rest := fun j => (hagree F' hR' j).rest
  refine ⟨F', hR', fun j => (hpaths j).reaches, ?_⟩
  by_cases hr : (F' i).cursor.rest = []
  · left
    intro j
    have hj := (hrest j).trans hr
    exact ⟨hj, run_eq (hd j) (hn j) (hpaths j).reaches (.atEnd hj)⟩
  · right
    obtain ⟨ending, taken, hl, -⟩ := hs.broken (hp.reaches.nested (hn i)) hr
    refine ⟨ending, taken, fun j => ?_⟩
    exact run_eq (hd j) (hn j) (hpaths j).reaches (stops_of_broken (by rw [hrest j]; exact hl))

end Family

end Machine
end InlineSheet
