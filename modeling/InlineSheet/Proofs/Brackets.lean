import InlineSheet.Proofs.History
import Mathlib.Data.List.Induction

/-!
# The brackets of a host expression

A host expression counts the brackets among its own text, so that it closes at the bracket that
matches its opening one. `Balanced` says by grammar what a balanced word is, without counting. Main
statement: the count is the number of opening brackets taken in less that of closing ones, it was
never negative before, and in front of a closing bracket the region ends just if the brackets it has
taken in form a balanced word. The closing bracket has to be a character that is left to the region;
the opening one may be any, the closing one included.
-/
namespace InlineSheet

/-- Words in which every opening bracket has a closing one of its own. -/
inductive Balanced (opening closing : Char) : List Char → Prop
  | nil : Balanced opening closing []
  | group {w v : List Char} (hw : Balanced opening closing w) (hv : Balanced opening closing v) :
      Balanced opening closing (opening :: (w ++ closing :: v))

/-- Words in which `n` opening brackets have no closing one: balanced words with these between them.
-/
inductive Unmatched (opening closing : Char) : Nat → List Char → Prop
  | none {w : List Char} (h : Balanced opening closing w) : Unmatched opening closing 0 w
  | more {n : Nat} {w v : List Char} (hw : Unmatched opening closing n w)
      (hv : Balanced opening closing v) : Unmatched opening closing (n + 1) (w ++ opening :: v)

section Words

variable {o c : Char}

theorem Balanced.append {w v : List Char} (hw : Balanced o c w) (hv : Balanced o c v) :
    Balanced o c (w ++ v) := by
  induction hw with
  | nil => exact hv
  | @group w u hw _ _ ih =>
    have he : o :: (w ++ c :: u) ++ v = o :: (w ++ c :: (u ++ v)) := by simp
    rw [he]
    exact .group hw ih

theorem Balanced.count_eq {w : List Char} (h : Balanced o c w) : w.count o = w.count c := by
  by_cases hoc : o = c
  · rw [hoc]
  · induction h with
    | nil => rfl
    | group _ _ ihw ihv =>
      have hco : c ≠ o := Ne.symm hoc
      simp only [List.count_cons, List.count_append, beq_iff_eq, hoc, hco, if_true, if_false, ihw,
        ihv]
      omega

theorem Unmatched.append {n : Nat} {w v : List Char} (hw : Unmatched o c n w)
    (hv : Balanced o c v) : Unmatched o c n (w ++ v) := by
  cases hw with
  | none hw => exact .none (hw.append hv)
  | more hw hu =>
    rw [List.append_assoc, List.cons_append]
    exact .more hw (hu.append hv)

theorem Unmatched.opened {n : Nat} {w : List Char} (h : Unmatched o c n w) :
    Unmatched o c (n + 1) (w ++ [o]) :=
  .more h .nil

/-- A closing bracket goes with the last opening one that had none. -/
theorem Unmatched.closed {n : Nat} {w : List Char} (h : Unmatched o c (n + 1) w) :
    Unmatched o c n (w ++ [c]) := by
  cases h with
  | more hw hv =>
    rw [List.append_assoc, List.cons_append]
    exact hw.append (.group hv .nil)

theorem Unmatched.balanced {w : List Char} (h : Unmatched o c 0 w) : Balanced o c w := by
  cases h with
  | none h => exact h

end Words

namespace Region

/-- Whether an entry is the character `c` as text. Literals, comments and folded regions never are,
whatever they hold. -/
def Entry.IsText (c : Char) : Entry → Prop
  | .token t => t.kind = .text ∧ t.value = [c]
  | .folded _ => False

instance (c : Char) : DecidablePred (Entry.IsText c) := fun e =>
  match e with
  | .token _ => inferInstanceAs (Decidable (_ ∧ _))
  | .folded _ => inferInstanceAs (Decidable False)

/-- How often `c` was taken in as text. -/
def texts (c : Char) (es : List Entry) : Nat := es.countP (Entry.IsText c ·)

/-- The bracket that an entry is, if it is one. -/
def Entry.bracket (d : Delimiters) (e : Entry) : List Char :=
  if e.IsText d.exprOpen then [d.exprOpen] else if e.IsText d.exprClose then [d.exprClose] else []

/-- The brackets that were taken in as text, in order. -/
def brackets (d : Delimiters) (es : List Entry) : List Char := es.flatMap (Entry.bracket d)

theorem texts_concat (c : Char) (es : List Entry) (e : Entry) :
    texts c (es ++ [e]) = texts c es + if e.IsText c then 1 else 0 := by
  simp [texts, List.countP_append, List.countP_singleton]

theorem brackets_concat (d : Delimiters) (es : List Entry) (e : Entry) :
    brackets d (es ++ [e]) = brackets d es ++ e.bracket d := by
  simp [brackets, List.flatMap_append]

theorem Entry.IsText.char_eq {c c' : Char} {e : Entry} (h : e.IsText c) (h' : e.IsText c') :
    c = c' := by
  cases e with
  | token t =>
    have he := h.2.symm.trans h'.2
    exact (List.cons.inj he).1
  | folded _ => exact h.elim

theorem count_brackets (d : Delimiters) (es : List Entry) :
    (brackets d es).count d.exprOpen = texts d.exprOpen es ∧
      (brackets d es).count d.exprClose = texts d.exprClose es := by
  induction es using List.reverseRecOn with
  | nil => exact ⟨rfl, rfl⟩
  | append_singleton es e ih =>
    rw [brackets_concat, texts_concat, texts_concat, List.count_append, List.count_append, ih.1,
      ih.2]
    by_cases ho : e.IsText d.exprOpen
    · by_cases hc : e.IsText d.exprClose
      · simp [Entry.bracket, hc, ho.char_eq hc]
      · have hne : d.exprOpen ≠ d.exprClose := fun he => hc (he ▸ ho)
        simp [Entry.bracket, ho, hc, hne]
    · by_cases hc : e.IsText d.exprClose
      · have hne : d.exprClose ≠ d.exprOpen := fun he => ho (he ▸ hc)
        simp [Entry.bracket, ho, hc, hne]
      · simp [Entry.bracket, ho, hc]

/-- The count of open brackets tells what the region has taken in. -/
structure Tallied (d : Delimiters) (r : Region) (es : List Entry) : Prop where
  eq_sub : r.openBrackets = (texts d.exprOpen es : Int) - texts d.exprClose es
  /-- At no earlier moment were there more closing brackets than opening ones. -/
  texts_le : ∀ earlier, earlier <+: es → texts d.exprClose earlier ≤ texts d.exprOpen earlier
  unmatched : Unmatched d.exprOpen d.exprClose r.openBrackets.toNat (brackets d es)

namespace Tallied

variable {d : Delimiters} {r : Region} {es : List Entry}

theorem nonneg (h : Tallied d r es) : 0 ≤ r.openBrackets := by
  have hle := h.texts_le es (List.prefix_refl es)
  have hsub := h.eq_sub
  omega

theorem fresh (kind : Kind) (startLine : Int) (dialect : Dialect) :
    Tallied d { kind, startLine, dialect } [] where
  eq_sub := rfl
  texts_le := by
    intro earlier hp
    rw [List.prefix_nil.mp hp]
    exact Nat.le_refl 0
  unmatched := .none .nil

/-- No bracket is open just if the word of brackets is balanced. -/
theorem eq_zero_iff (h : Tallied d r es) :
    r.openBrackets = 0 ↔ Balanced d.exprOpen d.exprClose (brackets d es) := by
  constructor
  · intro hz
    have hu := h.unmatched
    rw [hz] at hu
    exact hu.balanced
  · intro hb
    have hcount := hb.count_eq
    obtain ⟨ho, hc⟩ := count_brackets d es
    have hsub := h.eq_sub
    omega

/-- One more entry: only the count behind it has to be looked at. -/
theorem concat {r' : Region} {e : Entry} (h : Tallied d r es)
    (hsub : r'.openBrackets =
      (texts d.exprOpen (es ++ [e]) : Int) - texts d.exprClose (es ++ [e]))
    (hnonneg : 0 ≤ r'.openBrackets)
    (hu : Unmatched d.exprOpen d.exprClose r'.openBrackets.toNat (brackets d (es ++ [e]))) :
    Tallied d r' (es ++ [e]) where
  eq_sub := hsub
  texts_le := by
    intro earlier hp
    rcases List.prefix_concat_iff.mp hp with rfl | hp
    · omega
    · exact h.texts_le earlier hp
  unmatched := hu

theorem concat_other {r' : Region} {e : Entry} (h : Tallied d r es)
    (ho : ¬ e.IsText d.exprOpen) (hc : ¬ e.IsText d.exprClose)
    (hr : r'.openBrackets = r.openBrackets) : Tallied d r' (es ++ [e]) := by
  have hsub := h.eq_sub
  have hnonneg := h.nonneg
  apply h.concat
  · rw [texts_concat, texts_concat, if_neg ho, if_neg hc]
    omega
  · omega
  · rw [brackets_concat, Entry.bracket, if_neg ho, if_neg hc, List.append_nil, hr]
    exact h.unmatched

theorem concat_open {r' : Region} {e : Entry} (h : Tallied d r es)
    (ho : e.IsText d.exprOpen) (hc : ¬ e.IsText d.exprClose)
    (hr : r'.openBrackets = r.openBrackets + 1) : Tallied d r' (es ++ [e]) := by
  have hsub := h.eq_sub
  have hnonneg := h.nonneg
  have hnat : r'.openBrackets.toNat = r.openBrackets.toNat + 1 := by omega
  apply h.concat
  · rw [texts_concat, texts_concat, if_pos ho, if_neg hc]
    omega
  · omega
  · rw [brackets_concat, Entry.bracket, if_pos ho, hnat]
    exact h.unmatched.opened

theorem concat_close {r' : Region} {e : Entry} (h : Tallied d r es)
    (ho : ¬ e.IsText d.exprOpen) (hc : e.IsText d.exprClose) (hz : r.openBrackets ≠ 0)
    (hr : r'.openBrackets = r.openBrackets - 1) : Tallied d r' (es ++ [e]) := by
  have hsub := h.eq_sub
  have hnonneg := h.nonneg
  have hnat : r.openBrackets.toNat = r'.openBrackets.toNat + 1 := by omega
  apply h.concat
  · rw [texts_concat, texts_concat, if_neg ho, if_pos hc]
    omega
  · omega
  · rw [brackets_concat, Entry.bracket, if_neg ho, if_pos hc]
    have hu := h.unmatched
    rw [hnat] at hu
    exact hu.closed

end Tallied

theorem accept_openBrackets (d : Delimiters) {r : Region} (hk : r.kind = .expr) (t : Token) :
    (r.accept d t).openBrackets =
      if (Entry.token t).IsText d.exprOpen then r.openBrackets + 1
      else if (Entry.token t).IsText d.exprClose ∧ r.openBrackets ≠ 0 then r.openBrackets - 1
      else r.openBrackets := by
  rcases t with ⟨kind, value, line⟩
  cases kind with
  | text => simp [accept, hk, bracketsAfter, Entry.IsText]
  | comment | string => simp [accept, hk, Entry.IsText]
  | whitespace =>
    simp only [accept, hk, writeSpace, Entry.IsText]
    split <;> simp

theorem fold_openBrackets (names : Runtime) (r : Region) (output : List Char) :
    (r.fold names output).openBrackets = r.openBrackets := by
  unfold fold
  split <;> rfl

/-- In front of a closing bracket a host expression ends just if none of its own is open. -/
theorem ends_expr_iff {d : Delimiters} {r : Region} (hk : r.kind = .expr) {c : Cursor}
    {rest : List Char} (hr : c.rest = d.exprClose :: rest) :
    r.Ends d c ↔ r.openBrackets = 0 := by
  have hroot : r.kind ≠ .root := by
    rw [hk]
    decide
  have hstarts : c.startsWith (r.kind.closer d) = true := by
    rw [hk, Cursor.startsWith, hr, List.isPrefixOf_iff_prefix]
    exact ⟨rest, rfl⟩
  exact ⟨fun he => he.2.2 hk, fun hz => ⟨hroot, hstarts, fun _ => hz⟩⟩

/-- A closing bracket is never taken in while no bracket is open. If the two brackets are one, it is
never taken in at all. -/
theorem Tallied.accept {d : Delimiters} {r : Region} {es : List Entry} (h : Tallied d r es)
    (hk : r.kind = .expr) (t : Token)
    (hclose : (Entry.token t).IsText d.exprClose → r.openBrackets ≠ 0) :
    Tallied d (r.accept d t) (es ++ [.token t]) := by
  have hr := accept_openBrackets d hk t
  by_cases ho : (Entry.token t).IsText d.exprOpen
  · rw [if_pos ho] at hr
    have hc : ¬ (Entry.token t).IsText d.exprClose := by
      intro hc
      have hsub := h.eq_sub
      rw [ho.char_eq hc] at hsub
      have hz := hclose hc
      omega
    exact h.concat_open ho hc hr
  · by_cases hc : (Entry.token t).IsText d.exprClose
    · rw [if_neg ho, if_pos ⟨hc, hclose hc⟩] at hr
      exact h.concat_close ho hc (hclose hc) hr
    · rw [if_neg ho, if_neg fun hb => hc hb.1] at hr
      exact h.concat_other ho hc hr

end Region

namespace Machine

open Region

/-- In front of a closing bracket a host expression takes it in only while brackets are open. -/
theorem Hands.openBrackets_ne_zero {d : Dialect} {m : Machine} {t : Token} (h : Hands d m t)
    (hc : Plain d.exprClose) (hk : m.top.kind = .expr)
    (ht : (Entry.token t).IsText d.exprClose) : m.top.openBrackets ≠ 0 := by
  cases h with
  | scanned kind value hl =>
    obtain ⟨rfl, rfl⟩ : kind = .text ∧ value = [d.exprClose] := ht
    have hs := eq_slash_of_lexeme_text hl
    exact absurd (List.cons.inj hs).1 hc.2.1
  | text c hl ho he =>
    obtain ⟨rest, hr, -⟩ := cons_of_lexeme_plain hl
    have hce : c = d.exprClose := (List.cons.inj ht.2).1
    rw [hce] at hr
    exact fun hz => he ((ends_expr_iff hk hr).mpr hz)

/-- Every open host expression has the right count of its own brackets. -/
def Tallies (d : Dialect) (m : Machine) : Prop :=
  List.Forall₂ (fun r es => r.kind = .expr → Tallied d.toDelimiters r es) m.stack
    (m.histories d.toRuntime)

theorem Reaches.tallies {d : Dialect} (hc : Plain d.exprClose) {source : List Char} {line : Int}
    {m : Machine} (h : Reaches (begun d source line) m) : m.Tallies d := by
  apply h.forall₂_histories
  · intro kind startLine dialect _
    exact .fresh kind startLine dialect
  · intro m t own hh ht hk
    rw [accept_kind] at hk
    exact (ht hk).accept hk t (hh.openBrackets_ne_zero hc hk)
  · intro child r own _ ht hk
    rw [fold_kind] at hk
    exact (ht hk).concat_other id id (fold_openBrackets _ _ _)

/-- The next round takes the innermost region off. -/
def Pops (m : Machine) : Prop := (m.step m.top.dialect).machine.depth < m.depth

theorem pops_iff {d : Dialect} {m : Machine} (hn : Nested d m.stack) :
    m.Pops ↔ (∃ c, lexeme m.cursor.rest = .plain c) ∧
      m.cursor.startsWith (m.top.childOpener d.toDelimiters) = false ∧
      m.top.Ends d.toDelimiters m.cursor := by
  constructor
  · intro hp
    rw [Pops, hn.top_dialect] at hp
    rcases step_cases d hn with ⟨-, hs⟩ | ⟨m', hm, hs⟩ | ⟨ending, taken, -, hs⟩ <;> rw [hs] at hp
    · exact absurd hp (Nat.lt_irrefl _)
    · cases hm with
      | token kind value hl => exact absurd hp (Nat.lt_irrefl _)
      | enter c hl ho => exact absurd hp (by simp [depth, entered])
      | leave c hl ho he parent below hb => exact ⟨⟨c, hl⟩, ho, he⟩
      | text c hl ho he => exact absurd hp (Nat.lt_irrefl _)
    · exact absurd hp (Nat.lt_irrefl _)
  · rintro ⟨⟨c, hl⟩, ho, he⟩
    obtain ⟨parent, below, hb⟩ := List.exists_cons_of_ne_nil (hn.below_ne_nil he.1)
    have hm : Move d m _ := .leave c hl ho he parent below hb (hn.around hb).2.1
    rw [Pops, hn.top_dialect, hm.step_eq]
    simp [depth, left, hb]

/-- A host expression closes at the bracket that matches its opening one. -/
theorem pops_iff_balanced (d : Dialect) (hc : Plain d.exprClose) (source : List Char) (line : Int) :
    (∀ rounds, ((begun d source line).runFor rounds).machine.Tallies d) ∧
    ∀ m, Reaches (begun d source line) m → m.top.kind = .expr →
      (m.Pops → Balanced d.exprOpen d.exprClose
        (brackets d.toDelimiters (m.history d.toRuntime))) ∧
      (m.cursor.rest.head? = some d.exprClose → m.cursor.startsWith d.sheetOpen = false →
        (m.Pops ↔ Balanced d.exprOpen d.exprClose
          (brackets d.toDelimiters (m.history d.toRuntime)))) := by
  constructor
  · intro rounds
    obtain ⟨m, n, hp, he⟩ := exists_reaches_runFor rounds (begun_nested d source line)
    rw [he]
    exact hp.tallies hc
  · intro m hp hk
    have htally := history_of_forall₂ (hp.tallies hc) hk
    rw [pops_iff (hp.nested (begun_nested d source line)), ← htally.eq_zero_iff]
    constructor
    · intro hpop
      exact hpop.2.2.2.2 hk
    · intro hhead ho
      obtain ⟨rest, hr⟩ := List.head?_eq_some_iff.mp hhead
      constructor
      · intro hpop
        exact hpop.2.2.2.2 hk
      · intro hz
        have hl : lexeme m.cursor.rest = .plain d.exprClose := by
          rw [hr, lexeme_plain hc.1 hc.2.1 hc.2.2]
        have hopener : m.cursor.startsWith (m.top.childOpener d.toDelimiters) = false := by
          rw [childOpener, hk]
          exact ho
        exact ⟨⟨d.exprClose, hl⟩, hopener, (ends_expr_iff hk hr).mpr hz⟩

/-- Neither the bracket in a literal nor anything in an inner stylesheet counts: the region closes
at the second closing bracket behind them, nine rounds from the start. -/
theorem pops_iff_balanced_hidden :
    Plain ']' ∧
      ((begun .standard "<<[a[']'<<b>>]]>>".toList 1).runFor 9).machine.Pops := by
  have hc : Plain ']' := by decide
  have hreach := reaches_runFor (n := 9)
    (begun_nested .standard "<<[a[']'<<b>>]]>>".toList 1) (by decide +kernel)
  have hword : brackets Dialect.standard.toDelimiters
      (((begun .standard "<<[a[']'<<b>>]]>>".toList 1).runFor 9).machine.history
        Dialect.standard.toRuntime) = ['[', ']'] := by
    decide +kernel
  refine ⟨hc, ?_⟩
  have hiff := ((pops_iff_balanced .standard hc _ 1).2 _ hreach (by decide +kernel)).2
    (by decide +kernel) (by decide +kernel)
  rw [hiff, hword]
  exact .group .nil .nil

end Machine
end InlineSheet
