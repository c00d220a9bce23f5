import InlineSheet.Proofs.Lexeme
import InlineSheet.Transpiler
import Mathlib.Logic.Relation

/-!
# The reading loop

`Move` says once what a round can do to a machine: take a token, enter a region, leave one, or take a
character of text. `Reaches` is any number of rounds, and `Stops` the two ways in which there is no
further one. A round is made in the dialect of the innermost region; `Nested d` has every open region
in the dialect `d`, and from there each round is a move in `d`. Where some stylesheet delimiter has a
character, the rounds that `run` is given are enough, so that a run is exactly a path to a stop.
Nothing is said here about what was written.
-/
namespace InlineSheet

namespace Region

@[simp] theorem write_kind (r : Region) (cs : List Char) : (r.write cs).kind = r.kind := rfl

@[simp] theorem write_startLine (r : Region) (cs : List Char) :
    (r.write cs).startLine = r.startLine := rfl

@[simp] theorem write_openBrackets (r : Region) (cs : List Char) :
    (r.write cs).openBrackets = r.openBrackets := rfl

@[simp] theorem write_toList (r : Region) (cs : List Char) :
    (r.write cs).content.toList = r.content.toList ++ cs :=
  Buffer.toList_append r.content cs

@[simp] theorem accept_kind (d : Delimiters) (r : Region) (t : Token) :
    (r.accept d t).kind = r.kind := by
  rcases r with ⟨kind, startLine, content, open', dialect⟩
  rcases t with ⟨tkind, value, line⟩
  cases kind <;> cases tkind <;> simp only [accept, writeSpace] <;> (try split) <;> rfl

@[simp] theorem accept_dialect (d : Delimiters) (r : Region) (t : Token) :
    (r.accept d t).dialect = r.dialect := by
  rcases r with ⟨kind, startLine, content, open', dialect⟩
  rcases t with ⟨tkind, value, line⟩
  cases kind <;> cases tkind <;> simp only [accept, writeSpace] <;> (try split) <;> rfl

@[simp] theorem fold_kind (names : Runtime) (r : Region) (output : List Char) :
    (r.fold names output).kind = r.kind := by
  unfold fold
  split <;> rfl

@[simp] theorem fold_dialect (names : Runtime) (r : Region) (output : List Char) :
    (r.fold names output).dialect = r.dialect := by
  unfold fold
  split <;> rfl

/-- What a region writes for a token. -/
def added (r : Region) (t : Token) : List Char :=
  match r.kind, t.kind with
  | .root, _ => t.value
  | _, .comment => []
  | _, .whitespace => if r.content.last? = some ' ' then [] else [' ']
  | .sheet, .string => sheetLiteral t.value
  | _, _ => t.value

theorem accept_toList (d : Delimiters) (r : Region) (t : Token) :
    (r.accept d t).content.toList = r.content.toList ++ r.added t := by
  rcases r with ⟨kind, startLine, content, openBrackets, dialect⟩
  rcases t with ⟨tkind, value, line⟩
  cases kind <;> cases tkind <;> simp only [accept, added, writeSpace, write_toList] <;>
    (try split) <;> simp

theorem add?_of_ne_nil (d : Delimiters) (r : Region) (t : Token) (h : t.value ≠ []) :
    r.add? d t = some (r.accept d t) := by
  have hr : ¬ r.Refuses t := fun hr => h hr.2.2
  simp only [add?, hr, if_false]

end Region

/-- Only a stylesheet can open without input. -/
theorem Region.Kind.child_of_opener_eq_nil {d : Delimiters} {k : Kind}
    (h : k.child.opener d = []) : k.child = .sheet ∧ k ≠ .sheet := by
  cases k with
  | root => exact ⟨rfl, by decide⟩
  | sheet => cases h
  | expr => exact ⟨rfl, by decide⟩

/-- The failure that a literal without a closing quote leads to. -/
def Literal.Ending.failure (line : Int) : Literal.Ending → Failure
  | .lineBreak => .multiLineString line
  | _ => .unclosedString line

namespace Machine

/-- The machine behind a token that was handed to the innermost region. -/
def took (d : Delimiters) (m : Machine) (kind : Token.Kind) (value : List Char) : Machine :=
  let token : Token := { kind, value, line := m.cursor.line }
  { m with
    cursor := m.cursor.skip value.length
    top := m.top.accept d token
    trace := m.trace.push (.token m.top.kind token) }

def inner (d : Delimiters) (m : Machine) : Region where
  kind := m.top.kind.child
  startLine := (m.cursor.skip (m.top.childOpener d).length).line
  dialect := m.top.dialect

def entered (d : Delimiters) (m : Machine) : Machine :=
  { m with
    cursor := m.cursor.skip (m.top.childOpener d).length
    top := m.inner d
    below := m.top :: m.below
    trace := m.trace.push (.opened (m.inner d) (m.depth + 1)) }

/-- The machine behind the innermost region, which stood in `parent`. -/
def left (d : Dialect) (m : Machine) (parent : Region) (below : List Region) : Machine :=
  { m with
    cursor := m.cursor.skip (m.top.kind.closer d.toDelimiters).length
    top := parent.fold d.toRuntime (m.top.render d.toRuntime)
    below
    trace := m.trace.push
      (.closed m.top (m.cursor.skip (m.top.kind.closer d.toDelimiters).length).line) }

/-- A round that does not fail. -/
inductive Move (d : Dialect) (m : Machine) : Machine → Prop
  | token (kind : Token.Kind) (value : List Char)
      (hl : lexeme m.cursor.rest = .token kind value) :
      Move d m (m.took d.toDelimiters kind value)
  | enter (c : Char) (hl : lexeme m.cursor.rest = .plain c)
      (ho : m.cursor.startsWith (m.top.childOpener d.toDelimiters) = true) :
      Move d m (m.entered d.toDelimiters)
  | leave (c : Char) (hl : lexeme m.cursor.rest = .plain c)
      (ho : m.cursor.startsWith (m.top.childOpener d.toDelimiters) = false)
      (he : m.top.Ends d.toDelimiters m.cursor)
      (parent : Region) (below : List Region) (hb : m.below = parent :: below)
      (hp : parent.dialect = d) : Move d m (m.left d parent below)
  | text (c : Char) (hl : lexeme m.cursor.rest = .plain c)
      (ho : m.cursor.startsWith (m.top.childOpener d.toDelimiters) = false)
      (he : ¬ m.top.Ends d.toDelimiters m.cursor) :
      Move d m (m.took d.toDelimiters .text [c])

theorem deliver_eq (d : Delimiters) (m : Machine) (kind : Token.Kind) {value : List Char}
    (h : value ≠ []) : m.deliver d kind value = { machine := m.took d kind value } := by
  have ha := Region.add?_of_ne_nil d m.top { kind, value, line := m.cursor.line } h
  simp only [deliver, skip, record, ha, took]

theorem scanString_closed (d : Delimiters) {m : Machine} {value : List Char}
    (hs : Literal.scan m.cursor.rest = (.closed, value)) (h : value ≠ []) :
    m.scanString d = { machine := m.took d .string value } := by
  rw [← deliver_eq d m .string h]
  simp only [scanString, hs]

/-- A literal that is not closed leaves everything as it was but the place in the input. -/
theorem scanString_broken (d : Delimiters) {m : Machine} {ending : Literal.Ending}
    {taken : List Char} (hs : Literal.scan m.cursor.rest = (ending, taken))
    (hc : ending ≠ .closed) :
    m.scanString d = { machine := m.skip taken.length,
                       failure := some (ending.failure (m.cursor.skip taken.length).line) } := by
  simp only [scanString, hs]
  cases ending with
  | closed => exact absurd rfl hc
  | lineBreak => rfl
  | inputEnd => rfl

theorem step_token {d : Dialect} {m : Machine} {kind : Token.Kind} {value : List Char}
    (hl : lexeme m.cursor.rest = .token kind value) :
    m.step d = { machine := m.took d.toDelimiters kind value } := by
  have hne := (admits_of_lexeme_token hl).2.ne_nil
  cases hr : m.cursor.rest with
  | nil => rw [hr] at hl; cases hl
  | cons c rest =>
    rw [hr] at hl
    rcases lexeme_cons c rest with ⟨hq, hs, e⟩ | ⟨-, -, e⟩ | ⟨hc, e⟩ | ⟨hb, e⟩ | ⟨-, e⟩ <;>
      rw [e] at hl <;> cases hl
    · simp only [step, hr, hq, if_true]
      exact scanString_closed _ (by rw [hr]; exact Prod.ext hs rfl) hne
    · rw [← deliver_eq _ _ _ hne]
      simp only [step, hr, hc, if_true, scanComment]
      rfl
    · have hs : c ≠ '/' := by
        rintro rfl
        exact absurd hb (by decide)
      rw [← deliver_eq _ _ _ hne]
      simp only [step, hr, isQuote_of_isBlank hb, hs, hb, if_true, if_false, scanBlank]
      rfl

theorem step_broken {d : Dialect} {m : Machine} {ending : Literal.Ending} {taken : List Char}
    (hl : lexeme m.cursor.rest = .broken ending taken) :
    m.step d = { machine := m.skip taken.length,
                 failure := some (ending.failure (m.cursor.skip taken.length).line) } := by
  obtain ⟨quote, rest, hr, hq, hs, hc⟩ := scan_of_lexeme_broken hl
  rw [← scanString_broken d.toDelimiters hs hc]
  simp only [step, hr, hq, if_true]

/-- In front of a plain character a round asks first for a region to open, then for one to close. -/
theorem step_plain {d : Dialect} {m : Machine} {c : Char} (hl : lexeme m.cursor.rest = .plain c) :
    m.step d = match m.openChild? d.toDelimiters with
      | some m => { machine := m }
      | none => (m.close? d).getD { machine := m.took d.toDelimiters .text [c] } := by
  obtain ⟨rest, hr, hq, hs, hb⟩ := cons_of_lexeme_plain hl
  have ht : m.scanText d.toDelimiters = { machine := m.took d.toDelimiters .text [c] } := by
    rw [scanText, hr]
    exact deliver_eq _ _ _ (by simp)
  cases ho : m.openChild? d.toDelimiters <;>
    simp only [step, hr, hq, hs, hb, if_false, Bool.false_eq_true, ho, ht]

theorem openChild?_eq (d : Delimiters) (m : Machine) :
    m.openChild? d =
      if m.cursor.startsWith (m.top.childOpener d) then some (m.entered d) else none := by
  by_cases ho : m.cursor.startsWith (m.top.childOpener d) = true
  · simp only [openChild?, Region.openChild?, ho, if_true, Option.map_some]
    rfl
  · simp only [openChild?, Region.openChild?, ho, if_false, Option.map_none, Bool.false_eq_true]

theorem close?_eq_none {d : Dialect} {m : Machine} (he : ¬ m.top.Ends d.toDelimiters m.cursor) :
    m.close? d = none := by
  simp only [close?, Region.close?, he, if_false, Option.map_none]

theorem close?_eq_some {d : Dialect} {m : Machine} (he : m.top.Ends d.toDelimiters m.cursor)
    {parent : Region} {below : List Region} (hb : m.below = parent :: below)
    (hp : parent.dialect = d) : m.close? d = some { machine := m.left d parent below } := by
  simp only [close?, Region.close?, he, if_true, Option.map_some, pop, hb, hp]
  rfl

theorem Move.step_eq {d : Dialect} {m m' : Machine} (h : Move d m m') :
    m.step d = { machine := m' } := by
  cases h with
  | token kind value hl => exact step_token hl
  | enter c hl ho => rw [step_plain hl, openChild?_eq, if_pos ho]
  | leave c hl ho he parent below hb hp =>
    rw [step_plain hl, openChild?_eq, ho, close?_eq_some he hb hp]
    rfl
  | text c hl ho he =>
    rw [step_plain hl, openChild?_eq, ho, close?_eq_none he]
    rfl

theorem Move.rest_ne_nil {d : Dialect} {m m' : Machine} (h : Move d m m') :
    m.cursor.rest ≠ [] := by
  have hl : lexeme m.cursor.rest ≠ .nothing := by
    cases h with
    | token kind value hl => rw [hl]; exact Lexeme.noConfusion
    | enter c hl _ => rw [hl]; exact Lexeme.noConfusion
    | leave c hl _ _ _ _ _ => rw [hl]; exact Lexeme.noConfusion
    | text c hl _ _ => rw [hl]; exact Lexeme.noConfusion
  intro hr
  exact hl (by rw [hr]; rfl)

/-- Every region stands in one of the kind that opens it, the outermost one is the root, and all are
of the dialect `d`. -/
def Nested (d : Dialect) : List Region → Prop
  | [] => False
  | [r] => r.kind = .root ∧ r.dialect = d
  | r :: parent :: below =>
    (r.kind = parent.kind.child ∧ r.dialect = d) ∧ Nested d (parent :: below)

section Nested

variable {d : Dialect} {r r' : Region} {below : List Region}

theorem Nested.of_eq (hk : r'.kind = r.kind) (hd : r'.dialect = r.dialect)
    (h : Nested d (r :: below)) : Nested d (r' :: below) := by
  cases below with
  | nil => exact ⟨hk.trans h.1, hd.trans h.2⟩
  | cons parent below => exact ⟨⟨hk.trans h.1.1, hd.trans h.1.2⟩, h.2⟩

theorem Nested.below_ne_nil (h : Nested d (r :: below)) (hk : r.kind ≠ .root) : below ≠ [] := by
  rintro rfl
  exact hk h.1

theorem Nested.dialect_eq {rs : List Region} (h : Nested d rs) : ∀ r ∈ rs, r.dialect = d := by
  induction rs with
  | nil => cases h
  | cons r rs ih =>
    cases rs with
    | nil => simpa using h.2
    | cons parent below => exact List.forall_mem_cons.mpr ⟨h.1.2, ih h.2⟩

theorem Nested.accept (h : Nested d (r :: below)) (marks : Delimiters) (t : Token) :
    Nested d (r.accept marks t :: below) :=
  h.of_eq (Region.accept_kind _ _ _) (Region.accept_dialect _ _ _)

theorem Nested.fold (h : Nested d (r :: below)) (names : Runtime) (output : List Char) :
    Nested d (r.fold names output :: below) :=
  h.of_eq (Region.fold_kind _ _ _) (Region.fold_dialect _ _ _)

end Nested

theorem Nested.top_dialect {d : Dialect} {m : Machine} (h : Nested d m.stack) : m.top.dialect = d :=
  h.dialect_eq m.top List.mem_cons_self

theorem Nested.around {d : Dialect} {m : Machine} {parent : Region} {below : List Region}
    (h : Nested d m.stack) (hb : m.below = parent :: below) :
    m.top.kind = parent.kind.child ∧ parent.dialect = d ∧ Nested d (parent :: below) := by
  have hst : Nested d (m.top :: parent :: below) := by
    rw [← hb]
    exact h
  exact ⟨hst.1.1, hst.2.dialect_eq parent List.mem_cons_self, hst.2⟩

theorem Move.nested {d : Dialect} {m m' : Machine} (h : Move d m m') (hn : Nested d m.stack) :
    Nested d m'.stack := by
  cases h with
  | token kind value hl => exact hn.accept _ _
  | enter c hl ho => exact ⟨⟨rfl, hn.top_dialect⟩, hn⟩
  | leave c hl ho he parent below hb => exact (hn.around hb).2.2.fold _ _
  | text c hl ho he => exact hn.accept _ _

/-- A round either moves or meets a literal that is not closed. -/
theorem exists_move {d : Dialect} {m : Machine} (hn : Nested d m.stack) (hr : m.cursor.rest ≠ []) :
    (∃ m', Move d m m') ∨ ∃ ending taken, lexeme m.cursor.rest = .broken ending taken := by
  cases hl : lexeme m.cursor.rest with
  | nothing => exact absurd (lexeme_eq_nothing hl) hr
  | token kind value => exact .inl ⟨_, .token kind value hl⟩
  | broken ending taken => exact .inr ⟨ending, taken, rfl⟩
  | plain c =>
    cases ho : m.cursor.startsWith (m.top.childOpener d.toDelimiters) with
    | true => exact .inl ⟨_, .enter c hl ho⟩
    | false =>
      by_cases he : m.top.Ends d.toDelimiters m.cursor
      · have hne := hn.below_ne_nil he.1
        obtain ⟨parent, below, hb⟩ := List.exists_cons_of_ne_nil hne
        exact .inl ⟨_, .leave c hl ho he parent below hb (hn.around hb).2.1⟩
      · exact .inl ⟨_, .text c hl ho he⟩

/-- All that a round can come to. -/
theorem step_cases (d : Dialect) {m : Machine} (hn : Nested d m.stack) :
    (m.cursor.rest = [] ∧ m.step d = { machine := m }) ∨
    (∃ m', Move d m m' ∧ m.step d = { machine := m' }) ∨
    ∃ ending taken, lexeme m.cursor.rest = .broken ending taken ∧
      m.step d = { machine := m.skip taken.length,
                   failure := some (ending.failure (m.cursor.skip taken.length).line) } := by
  by_cases hr : m.cursor.rest = []
  · exact .inl ⟨hr, by simp only [step, hr]⟩
  · rcases exists_move hn hr with ⟨m', hm⟩ | ⟨ending, taken, hl⟩
    · exact .inr (.inl ⟨m', hm, hm.step_eq⟩)
    · exact .inr (.inr ⟨ending, taken, hl, step_broken hl⟩)

/-- One round that does not fail, in front of some input. -/
def Goes (m m' : Machine) : Prop :=
  m.cursor.rest ≠ [] ∧ m.step m.top.dialect = { machine := m' }

/-- Any number of rounds, none of which fails. -/
def Reaches : Machine → Machine → Prop := Relation.ReflTransGen Goes

/-- No further round follows: the input is read, or the round fails. -/
inductive Stops (m : Machine) : Progress → Prop
  | atEnd (h : m.cursor.rest = []) : Stops m { machine := m }
  | failed (h : m.cursor.rest ≠ []) (hf : (m.step m.top.dialect).failure ≠ none) :
      Stops m (m.step m.top.dialect)

theorem Move.goes {d : Dialect} {m m' : Machine} (h : Move d m m') (hn : Nested d m.stack) :
    Goes m m' :=
  ⟨h.rest_ne_nil, by rw [hn.top_dialect, h.step_eq]⟩

theorem Goes.move {d : Dialect} {m m' : Machine} (h : Goes m m') (hn : Nested d m.stack) :
    Move d m m' := by
  obtain ⟨hr, hs⟩ := h
  rw [hn.top_dialect] at hs
  rcases exists_move hn hr with ⟨next, hm⟩ | ⟨ending, taken, hl⟩
  · have he := hm.step_eq.symm.trans hs
    cases he
    exact hm
  · have he := (step_broken hl).symm.trans hs
    cases he

/-- What every move keeps holds in every machine that is reached. -/
theorem Reaches.induct {d : Dialect} {m m' : Machine} (h : Reaches m m') (hn : Nested d m.stack)
    {P : Machine → Prop} (h₀ : P m)
    (hstep : ∀ a b, Nested d a.stack → Move d a b → P a → P b) : Nested d m'.stack ∧ P m' := by
  induction h with
  | refl => exact ⟨hn, h₀⟩
  | tail _ hg ih =>
    have hm := hg.move ih.1
    exact ⟨hm.nested ih.1, hstep _ _ ih.1 hm ih.2⟩

theorem Reaches.nested {d : Dialect} {m m' : Machine} (h : Reaches m m')
    (hn : Nested d m.stack) : Nested d m'.stack :=
  (h.induct (P := fun _ => True) hn trivial fun _ _ _ _ _ => trivial).1

theorem stops_of_broken {m : Machine} {ending : Literal.Ending} {taken : List Char}
    (hl : lexeme m.cursor.rest = .broken ending taken) :
    Stops m { machine := m.skip taken.length,
              failure := some (ending.failure (m.cursor.skip taken.length).line) } := by
  have hr : m.cursor.rest ≠ [] := by
    intro h
    rw [h] at hl
    cases hl
  have hs := step_broken (d := m.top.dialect) hl
  rw [← hs]
  exact .failed hr (by rw [hs]; exact Option.some_ne_none _)

theorem Stops.broken {d : Dialect} {m : Machine} {p : Progress} (hs : Stops m p)
    (hn : Nested d m.stack) (hr : m.cursor.rest ≠ []) :
    ∃ ending taken, lexeme m.cursor.rest = .broken ending taken ∧
      p = { machine := m.skip taken.length,
            failure := some (ending.failure (m.cursor.skip taken.length).line) } := by
  cases hs with
  | atEnd h => exact absurd h hr
  | failed _ hf =>
    rcases exists_move hn hr with ⟨m', hm⟩ | ⟨ending, taken, hl⟩
    · exact absurd (by rw [hn.top_dialect, hm.step_eq]) hf
    · exact ⟨ending, taken, hl, step_broken hl⟩

theorem Stops.not_goes {m m' : Machine} {p : Progress} (h : Stops m p) :
    ¬ Goes m m' := by
  rintro ⟨hr, hs⟩
  cases h with
  | atEnd he => exact hr he
  | failed _ hf => exact hf (by rw [hs])

theorem Stops.unique {m : Machine} {p q : Progress} (hp : Stops m p)
    (hq : Stops m q) : p = q := by
  cases hp with
  | atEnd h =>
    cases hq with
    | atEnd _ => rfl
    | failed h' _ => exact absurd h h'
  | failed h _ =>
    cases hq with
    | atEnd h' => exact absurd h' h
    | failed _ _ => rfl

theorem Reaches.to_stop {m a b : Machine} {p : Progress} (ha : Reaches m a)
    (hs : Stops a p) (hb : Reaches m b) : Reaches b a := by
  induction hb with
  | refl => exact ha
  | tail _ hg ih =>
    rcases Relation.ReflTransGen.cases_head ih with he | ⟨c, hc, hca⟩
    · subst he
      exact absurd hg hs.not_goes
    · have he := hc.2.symm.trans hg.2
      cases he
      exact hca

theorem Reaches.stop_unique {m a b : Machine} {p q : Progress}
    (ha : Reaches m a) (hp : Stops a p) (hb : Reaches m b) (hq : Stops b q) : p = q := by
  rcases Relation.ReflTransGen.cases_head (ha.to_stop hp hb) with he | ⟨c, hc, -⟩
  · subst he
    exact hp.unique hq
  · exact absurd hc hq.not_goes

inductive ReachesIn : Nat → Machine → Machine → Prop
  | refl (m : Machine) : ReachesIn 0 m m
  | head {n : Nat} {a b c : Machine} (hg : Goes a b) (h : ReachesIn n b c) :
      ReachesIn (n + 1) a c

theorem ReachesIn.reaches {n : Nat} {m m' : Machine} (h : ReachesIn n m m') :
    Reaches m m' := by
  induction h with
  | refl => exact .refl
  | head hg _ ih => exact .head hg ih

/-- With `n` rounds the machine comes to a stop in at most that many, or it makes all of them and has
input left. -/
theorem runFor_reachesIn (n : Nat) (m : Machine) :
    ∃ k m', k ≤ n ∧ ReachesIn k m m' ∧ (Stops m' (m.runFor n) ∨
      (k = n ∧ m'.cursor.rest ≠ [] ∧
        m.runFor n = { machine := m', failure := some .stalled })) := by
  induction n generalizing m with
  | zero =>
    refine ⟨0, m, Nat.le_refl 0, .refl m, ?_⟩
    by_cases hr : m.cursor.rest = []
    · refine .inl ?_
      have he : m.runFor 0 = { machine := m } := by simp [runFor, Cursor.atEnd, hr]
      rw [he]
      exact .atEnd hr
    · exact .inr ⟨rfl, hr, by simp [runFor, Cursor.atEnd, hr]⟩
  | succ n ih =>
    by_cases hr : m.cursor.rest = []
    · refine ⟨0, m, Nat.zero_le _, .refl m, .inl ?_⟩
      have he : m.runFor (n + 1) = { machine := m } := by simp [runFor, Cursor.atEnd, hr]
      rw [he]
      exact .atEnd hr
    · cases hf : (m.step m.top.dialect).failure with
      | none =>
        have hg : Goes m (m.step m.top.dialect).machine := ⟨hr, by rw [← hf]⟩
        have he : m.runFor (n + 1) = (m.step m.top.dialect).machine.runFor n := by
          simp [runFor, Cursor.atEnd, hr, hf]
        rw [he]
        obtain ⟨k, m', hk, hp, hs⟩ := ih (m.step m.top.dialect).machine
        refine ⟨k + 1, m', Nat.succ_le_succ hk, .head hg hp, ?_⟩
        exact hs.imp_right fun hs => ⟨congrArg (· + 1) hs.1, hs.2⟩
      | some failure =>
        have he : m.runFor (n + 1) = m.step m.top.dialect := by
          simp [runFor, Cursor.atEnd, hr, hf]
        rw [he]
        exact ⟨0, m, Nat.zero_le _, .refl m, .inl (.failed hr (by simp [hf]))⟩

/-- Whatever becomes of some rounds, only the place in the input can differ from that in the last
machine reached. -/
theorem exists_reaches_runFor {d : Dialect} (n : Nat) {m : Machine} (hn : Nested d m.stack) :
    ∃ m' k, Reaches m m' ∧ (m.runFor n).machine = m'.skip k := by
  obtain ⟨_, m', -, hp, hs | ⟨-, -, he⟩⟩ := runFor_reachesIn n m
  · by_cases hr : m'.cursor.rest = []
    · refine ⟨m', 0, hp.reaches, ?_⟩
      rw [hs.unique (.atEnd hr), skip, Cursor.skip_zero]
    · obtain ⟨ending, taken, -, hb⟩ := hs.broken (hp.reaches.nested hn) hr
      exact ⟨m', taken.length, hp.reaches, by rw [hb]⟩
  · refine ⟨m', 0, hp.reaches, ?_⟩
    rw [he, skip, Cursor.skip_zero]

/-- Rounds that leave some input without having failed are a path. -/
theorem reaches_runFor {d : Dialect} {n : Nat} {m : Machine} (hn : Nested d m.stack)
    (h : (m.runFor n).failure = some .stalled) : Reaches m (m.runFor n).machine := by
  obtain ⟨_, m', -, hp, hs | ⟨-, -, he⟩⟩ := runFor_reachesIn n m
  · by_cases hr : m'.cursor.rest = []
    · rw [hs.unique (.atEnd hr)] at h
      cases h
    · obtain ⟨ending, taken, -, hb⟩ := hs.broken (hp.reaches.nested hn) hr
      rw [hb] at h
      cases ending <;> cases h
  · rw [he]
    exact hp.reaches

theorem runFor_nested {d : Dialect} (n : Nat) {m : Machine} (hn : Nested d m.stack) :
    Nested d (m.runFor n).machine.stack := by
  obtain ⟨m', k, hp, he⟩ := exists_reaches_runFor n hn
  rw [he]
  exact hp.nested hn

/-- Whether the next round has to take input: the one stylesheet delimiter that may be empty has just
been passed, or cannot stand here. -/
def Settled (d : Delimiters) (m : Machine) : Prop :=
  if d.sheetOpen = [] then m.top.kind = .sheet else m.top.kind ≠ .sheet

instance (d : Delimiters) (m : Machine) : Decidable (m.Settled d) := by
  unfold Settled
  infer_instance

/-- What the rounds use up: two for each character, one of them for a round without input. -/
def weight (d : Delimiters) (m : Machine) : Nat :=
  2 * m.cursor.size - if m.Settled d then 1 else 0

theorem weight_le (d : Delimiters) (m : Machine) : m.weight d ≤ 2 * m.cursor.size :=
  Nat.sub_le _ _

theorem le_weight (d : Delimiters) (m : Machine) : 2 * m.cursor.size - 1 ≤ m.weight d := by
  unfold weight
  split <;> omega

theorem weight_pos {d : Delimiters} {m : Machine} (hr : m.cursor.rest ≠ []) : 0 < m.weight d := by
  have hs : 0 < m.cursor.size := List.length_pos_iff.mpr hr
  have hw := le_weight d m
  omega

theorem weight_lt_of_skip {d : Delimiters} {m m' : Machine} {n : Nat} (hr : m.cursor.rest ≠ [])
    (hc : m'.cursor = m.cursor.skip n) (hn : 0 < n) : m'.weight d < m.weight d := by
  have hs : 0 < m.cursor.size := List.length_pos_iff.mpr hr
  have hw := weight_le d m'
  rw [hc, Cursor.size_skip] at hw
  have hw' := le_weight d m
  omega

theorem weight_lt_of_settled {d : Delimiters} {m m' : Machine} (hr : m.cursor.rest ≠ [])
    (hc : m'.cursor = m.cursor) (hm : ¬ m.Settled d) (hm' : m'.Settled d) :
    m'.weight d < m.weight d := by
  have hs : 0 < m.cursor.size := List.length_pos_iff.mpr hr
  unfold weight
  rw [if_neg hm, if_pos hm', hc]
  omega

theorem entered_weight_lt {d : Dialect} {m : Machine} (hr : m.cursor.rest ≠ []) :
    (m.entered d.toDelimiters).weight d.toDelimiters < m.weight d.toDelimiters := by
  by_cases ho : m.top.childOpener d.toDelimiters = []
  · have hc : (m.entered d.toDelimiters).cursor = m.cursor := by
      simp only [entered, ho, List.length_nil, Cursor.skip_zero]
    obtain ⟨hchild, hkind⟩ := Region.Kind.child_of_opener_eq_nil ho
    have hopen : d.sheetOpen = [] := by
      rw [Region.childOpener, hchild] at ho
      exact ho
    -- A round without input leaves the machine settled, and a settled one makes no such round.
    have hm : ¬ m.Settled d.toDelimiters := by
      rw [Settled, if_pos hopen]
      exact hkind
    refine weight_lt_of_settled hr hc hm ?_
    rw [Settled, if_pos hopen]
    exact hchild
  · exact weight_lt_of_skip hr rfl (List.length_pos_iff.mpr ho)

theorem left_weight_lt {d : Dialect} {m : Machine} (hd : d.Progressive) (hn : Nested d m.stack)
    (hr : m.cursor.rest ≠ []) (he : m.top.Ends d.toDelimiters m.cursor) {parent : Region}
    {below : List Region} (hb : m.below = parent :: below) :
    (m.left d parent below).weight d.toDelimiters < m.weight d.toDelimiters := by
  by_cases hcl : m.top.kind.closer d.toDelimiters = []
  · have hc : (m.left d parent below).cursor = m.cursor := by
      simp only [left, hcl, List.length_nil, Cursor.skip_zero]
    have hsheet : m.top.kind = .sheet ∧ d.sheetClose = [] := by
      have hroot := he.1
      cases hk : m.top.kind <;> rw [hk] at hcl <;> simp_all [Region.Kind.closer]
    have hopen : d.sheetOpen ≠ [] := hd.resolve_right fun h => h hsheet.2
    have hm : ¬ m.Settled d.toDelimiters := by
      rw [Settled, if_neg hopen]
      exact fun h => h hsheet.1
    refine weight_lt_of_settled hr hc hm ?_
    rw [Settled, if_neg hopen]
    have hp := (hn.around hb).1
    intro hk
    rw [left, Region.fold_kind] at hk
    rw [hk, hsheet.1] at hp
    cases hp
  · exact weight_lt_of_skip hr rfl (List.length_pos_iff.mpr hcl)

theorem Move.weight_lt {d : Dialect} {m m' : Machine} (h : Move d m m') (hd : d.Progressive)
    (hn : Nested d m.stack) : m'.weight d.toDelimiters < m.weight d.toDelimiters := by
  have hr := h.rest_ne_nil
  cases h with
  | token kind value hl =>
    exact weight_lt_of_skip hr rfl (List.length_pos_iff.mpr (admits_of_lexeme_token hl).2.ne_nil)
  | enter c hl ho => exact entered_weight_lt hr
  | leave c hl ho he parent below hb => exact left_weight_lt hd hn hr he hb
  | text c hl ho he => exact weight_lt_of_skip hr rfl Nat.one_pos

theorem ReachesIn.weight_le {d : Dialect} {n : Nat} {m m' : Machine} (h : ReachesIn n m m')
    (hd : d.Progressive) (hn : Nested d m.stack) :
    m'.weight d.toDelimiters + n ≤ m.weight d.toDelimiters := by
  induction h with
  | refl => exact Nat.le_refl _
  | head hg _ ih =>
    have hm := hg.move hn
    have hlt := hm.weight_lt hd hn
    have hle := ih (hm.nested hn)
    omega

theorem run_stopsIn {d : Dialect} {m : Machine} (hd : d.Progressive) (hn : Nested d m.stack) :
    ∃ n m', ReachesIn n m m' ∧ Stops m' m.run := by
  obtain ⟨k, m', -, hp, hs | ⟨hk, hr, -⟩⟩ := runFor_reachesIn (2 * m.cursor.size) m
  · exact ⟨k, m', hp, hs⟩
  · -- Running out would have used up more than the machine's weight.
    have hle := hp.weight_le hd hn
    have hpos := weight_pos (d := d.toDelimiters) hr
    have hw := Machine.weight_le d.toDelimiters m
    omega

/-- A run is a path to a stop. -/
theorem run_stops {d : Dialect} {m : Machine} (hd : d.Progressive) (hn : Nested d m.stack) :
    ∃ m', Reaches m m' ∧ Stops m' m.run := by
  obtain ⟨_, m', hp, hs⟩ := run_stopsIn hd hn
  exact ⟨m', hp.reaches, hs⟩

theorem run_eq {d : Dialect} {m m' : Machine} {p : Progress} (hd : d.Progressive)
    (hn : Nested d m.stack) (h : Reaches m m') (hs : Stops m' p) : m.run = p := by
  obtain ⟨a, ha, hsa⟩ := run_stops hd hn
  exact ha.stop_unique hsa h hs

end Machine

/-- What the source was worth where the machine stopped. -/
def Progress.outcome (d : Dialect) (p : Progress) : Except Failure (List Char) :=
  match p.failure with
  | none => p.machine.result d
  | some failure => .error failure

namespace Machine

/-- Some path from the machine ends in this result. -/
def Yields (d : Dialect) (m : Machine) (result : Except Failure (List Char)) : Prop :=
  ∃ m' p, Reaches m m' ∧ Stops m' p ∧ p.outcome d = result

theorem Yields.of_reaches {d : Dialect} {m m' : Machine} {result : Except Failure (List Char)}
    (h : Reaches m m') (hy : Yields d m' result) : Yields d m result := by
  obtain ⟨a, p, ha, hs, hp⟩ := hy
  exact ⟨a, p, h.trans ha, hs, hp⟩

/-- The machine at the start of its one run. -/
def begun (d : Dialect) (source : List Char) (line : Int) : Machine :=
  { start d source line with spent := true }

theorem begun_nested (d : Dialect) (source : List Char) (line : Int) :
    Nested d (begun d source line).stack := ⟨rfl, rfl⟩

theorem transpile_start (d : Dialect) (source : List Char) (line : Int) :
    (start d source line).transpile =
      ((begun d source line).run.machine, (begun d source line).run.outcome d) := by
  have hrun : (start d source line).transpile =
      match (begun d source line).run.failure with
      | none => ((begun d source line).run.machine,
          (begun d source line).run.machine.result (begun d source line).run.machine.top.dialect)
      | some failure => ((begun d source line).run.machine, .error failure) := rfl
  have hd := (runFor_nested (2 * (begun d source line).cursor.size)
    (begun_nested d source line)).top_dialect
  rw [hrun, Progress.outcome, run, hd]
  split <;> rfl

end Machine

namespace Transpiler

def answer (d : Dialect) (file : String) : Except Failure (List Char) → Except Diagnostic String
  | .ok output => .ok (String.ofList output)
  | .error failure => .error (failure.report d.toDelimiters file)

theorem run_new (d : Dialect) (file : String) (line : Int) (source : String) :
    ((new d file line source).run.1.machine = (Machine.begun d source.toList line).run.machine) ∧
    (new d file line source).run.2 =
      answer d file ((Machine.begun d source.toList line).run.outcome d) := by
  have hrun : (new d file line source).run =
      ({ new d file line source with
          machine := (Machine.start d source.toList line).transpile.1 },
        answer d file (Machine.start d source.toList line).transpile.2) := rfl
  rw [hrun, Machine.transpile_start]
  exact ⟨rfl, rfl⟩

end Transpiler
end InlineSheet
