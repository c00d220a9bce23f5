import InlineSheet.Proofs.History
import InlineSheet.Proofs.Trimming
import Mathlib.Data.List.DropRight
import Mathlib.Data.List.SplitBy

/-!
# Spacing

Inside a stylesheet or a host expression comments and blanks are layout. `compose` says what the
entries of such a region come to: layout that stands together is one space if there is a blank in
it and nothing otherwise, and every other entry is written out. Main statement: that is the text of
every open region wherever a run comes, although a region decides on each space by its last
character alone; and a stylesheet is trimmed of the space in front and the one behind, no more.
-/
namespace InlineSheet
namespace Region

/-- Comments and blanks. -/
def Entry.isLayout : Entry → Bool
  | .token t => t.kind = .comment ∨ t.kind = .whitespace
  | .folded _ => false

def Entry.isBlank : Entry → Bool
  | .token t => t.kind = .whitespace
  | .folded _ => false

/-- What an entry that is no layout comes to in a stylesheet or a host expression. -/
def Entry.written (names : Runtime) (k : Kind) : Entry → List Char
  | .token t =>
    if k = .sheet ∧ t.kind = .string ∧ t.value.head? = some '\'' then Literal.requote t.value
    else t.value
  | .folded output =>
    if k = .sheet then output else names.evaluateCall ++ ['('] ++ output ++ [')']

/-- What layout that stands together comes to. -/
def gap (layout : List Entry) : List Char := if layout.any Entry.isBlank then [' '] else []

/-- The entries with the layout that stands together in groups, and each other entry alone. -/
def groups (es : List Entry) : List (List Entry) :=
  es.splitBy fun a b => a.isLayout && b.isLayout

/-- What entries come to in a stylesheet or a host expression. -/
def compose (names : Runtime) (k : Kind) (es : List Entry) : List Char :=
  (groups es).flatMap fun group =>
    if group.all Entry.isLayout then gap group else group.flatMap (Entry.written names k)

/-- The layout in front of all other entries. -/
def lead (es : List Entry) : List Entry := es.takeWhile Entry.isLayout

/-- The entries from the first to the last that is no layout. -/
def core (es : List Entry) : List Entry := (es.dropWhile Entry.isLayout).rdropWhile Entry.isLayout

/-- The layout behind all other entries; there is none if the layout in front is all there is. -/
def trail (es : List Entry) : List Entry := (es.dropWhile Entry.isLayout).rtakeWhile Entry.isLayout

theorem isLayout_of_head?_dropWhile {es : List Entry} {e : Entry}
    (h : (es.dropWhile Entry.isLayout).head? = some e) : e.isLayout = false := by
  have hfirst := List.head?_dropWhile_not Entry.isLayout es
  rw [h] at hfirst
  simpa using hfirst

section Compose

variable (names : Runtime) (k : Kind)

/-- Entries compose apart where they do not part layout that stands together. -/
theorem compose_append {es fs : List Entry}
    (h : ∀ a ∈ es.getLast?, ∀ b ∈ fs.head?, (a.isLayout && b.isLayout) = false) :
    compose names k (es ++ fs) = compose names k es ++ compose names k fs := by
  rw [compose, groups, List.splitBy_append h, List.flatMap_append]
  rfl

theorem compose_layout {es : List Entry} (h : ∀ e ∈ es, e.isLayout = true) :
    compose names k es = gap es := by
  cases hn : es with
  | nil => rfl
  | cons e tail =>
    have hchain : es.IsChain fun a b => (a.isLayout && b.isLayout) = true := by
      refine List.Pairwise.isChain (List.pairwise_of_forall_mem_list fun a ha b hb => ?_)
      rw [h a ha, h b hb]
      rfl
    rw [← hn, compose, groups, List.splitBy_of_isChain (by simp [hn]) hchain]
    rw [List.flatMap_singleton, if_pos (List.all_eq_true.mpr h)]

theorem compose_singleton {e : Entry} (h : e.isLayout = false) :
    compose names k [e] = e.written names k := by
  have hg : groups [e] = [[e]] := rfl
  simp [compose, hg, h]

theorem compose_concat (es : List Entry) {e : Entry} (h : e.isLayout = false) :
    compose names k (es ++ [e]) = compose names k es ++ e.written names k := by
  rw [compose_append names k (by simp [h]), compose_singleton names k h]

theorem compose_cons (es : List Entry) {e : Entry} (h : e.isLayout = false) :
    compose names k (e :: es) = e.written names k ++ compose names k es := by
  rw [← List.singleton_append, compose_append names k (by simp [h]), compose_singleton names k h]

/-- The layout at the end is one group. -/
theorem compose_eq_rdropWhile (es : List Entry) :
    compose names k es =
      compose names k (es.rdropWhile Entry.isLayout) ++ gap (es.rtakeWhile Entry.isLayout) := by
  have hlast : ∀ a ∈ (es.rdropWhile Entry.isLayout).getLast?, a.isLayout = false := by
    intro a ha
    obtain ⟨hn, rfl⟩ := List.mem_getLast?_eq_getLast ha
    simpa using List.rdropWhile_last_not Entry.isLayout es hn
  conv_lhs => rw [← List.rdropWhile_append_rtakeWhile (p := Entry.isLayout) (l := es)]
  rw [compose_append names k fun a ha b _ => by rw [hlast a ha]; rfl,
    compose_layout names k fun e he => List.mem_rtakeWhile_imp he]

/-- The layout in front is one group. -/
theorem compose_eq_dropWhile (es : List Entry) :
    compose names k es = gap (lead es) ++ compose names k (es.dropWhile Entry.isLayout) := by
  conv_lhs => rw [← List.takeWhile_append_dropWhile (p := Entry.isLayout) (l := es)]
  rw [compose_append names k fun a _ b hb => by
      rw [isLayout_of_head?_dropWhile hb, Bool.and_false],
    compose_layout names k fun e he => List.mem_takeWhile_imp he]
  rfl

theorem compose_eq_core (es : List Entry) :
    compose names k es = gap (lead es) ++ compose names k (core es) ++ gap (trail es) := by
  rw [compose_eq_dropWhile, compose_eq_rdropWhile, ← List.append_assoc]
  rfl

end Compose

/-- No blank ends what the entry comes to, and in a stylesheet none begins it. In a host expression
it may begin with one: nothing is known of the name that is called there. -/
def Entry.Firm (names : Runtime) (k : Kind) (e : Entry) : Prop :=
  (∃ c ∈ (e.written names k).getLast?, Text.isBlank c = false) ∧
    (k = .sheet → Text.Solid (e.written names k))

theorem Entry.Firm.of_solid {names : Runtime} {k : Kind} {e : Entry}
    (h : Text.Solid (e.written names k)) : e.Firm names k :=
  ⟨h.2, fun _ => h⟩

theorem firm_token {names : Runtime} {k : Kind} {t : Token} (ha : t.kind.Admits t.value)
    (hl : (Entry.token t).isLayout = false) : (Entry.token t).Firm names k := by
  obtain ⟨kind, value, line⟩ := t
  apply Entry.Firm.of_solid
  cases kind with
  | comment | whitespace => simp [Entry.isLayout] at hl
  | string =>
    rw [Entry.written]
    split
    · exact Literal.solid_requote value
    · exact Literal.Complete.solid ha
  | text =>
    obtain ⟨c, -, hb, rfl⟩ := ha
    rw [Entry.written, if_neg (by simp)]
    exact ⟨⟨c, rfl, hb⟩, c, rfl, hb⟩

/-- What a closed host expression is worth begins and ends with a quote. -/
theorem solid_render {names : Runtime} {r : Region} (hk : r.kind = .expr) :
    Text.Solid (r.render names) := by
  simp only [render, hk]
  refine ⟨⟨'\'', rfl, by decide⟩, '\'', ?_, by decide⟩
  rw [List.getLast?_append]
  rfl

theorem firm_folded {names : Runtime} {k : Kind} (hk : k ≠ .root) {child : Region}
    (hc : child.kind = k.child) : (Entry.folded (child.render names)).Firm names k := by
  cases k with
  | root => exact absurd rfl hk
  | sheet => exact .of_solid (solid_render hc)
  | expr =>
    refine ⟨⟨')', ?_, by decide⟩, nofun⟩
    rw [Entry.written, if_neg (by decide), List.getLast?_concat]
    rfl

/-- Without the layout at the end, firm entries come to a text that no blank ends. -/
theorem exists_getLast?_compose {names : Runtime} {k : Kind} {es : List Entry}
    (h : ∀ e ∈ es, e.isLayout = false → e.Firm names k) (hn : es.rdropWhile Entry.isLayout ≠ []) :
    ∃ c ∈ (compose names k (es.rdropWhile Entry.isLayout)).getLast?, Text.isBlank c = false := by
  have hl := List.rdropWhile_last_not Entry.isLayout es hn
  rw [Bool.not_eq_true] at hl
  have hmem := (List.rdropWhile_prefix Entry.isLayout es).mem (List.getLast_mem hn)
  obtain ⟨c, hc, hb⟩ := (h _ hmem hl).1
  refine ⟨c, ?_, hb⟩
  rw [← List.dropLast_append_getLast hn, compose_concat _ _ _ hl, List.getLast?_append,
    Option.mem_def.mp hc]
  rfl

/-- From the first firm entry to the last there is nothing to trim. -/
theorem solid_compose_core {names : Runtime} {es : List Entry}
    (h : ∀ e ∈ es, e.isLayout = false → e.Firm names .sheet) (hn : core es ≠ []) :
    Text.Solid (compose names .sheet (core es)) := by
  have hdrop : ∀ e ∈ es.dropWhile Entry.isLayout, e ∈ es := fun _ he =>
    (List.dropWhile_suffix _).mem he
  refine ⟨?_, exists_getLast?_compose (fun e he => h e (hdrop e he)) hn⟩
  obtain ⟨e, tail, hcons⟩ := List.exists_cons_of_ne_nil hn
  obtain ⟨more, hmore⟩ := List.rdropWhile_prefix Entry.isLayout (es.dropWhile Entry.isLayout)
  rw [← core, hcons] at hmore
  have hl : e.isLayout = false := isLayout_of_head?_dropWhile (by rw [← hmore]; rfl)
  have hmem : e ∈ es := hdrop e (by rw [← hmore]; exact List.mem_cons_self)
  obtain ⟨c, hc, hb⟩ := ((h e hmem hl).2 rfl).1
  refine ⟨c, ?_, hb⟩
  rw [hcons, compose_cons _ _ _ hl, List.head?_append, Option.mem_def.mp hc]
  rfl

/-- The text of the region is composed of its entries, and they are firm. -/
structure Composed (names : Runtime) (r : Region) (es : List Entry) : Prop where
  content : r.content.toList = compose names r.kind es
  firm : ∀ e ∈ es, e.isLayout = false → e.Firm names r.kind

theorem composed_fresh (names : Runtime) (kind : Kind) (startLine : Int) (dialect : Dialect) :
    Composed names { kind, startLine, dialect } [] :=
  ⟨rfl, nofun⟩

namespace Composed

variable {names : Runtime} {r : Region} {es : List Entry}

/-- The last character tells whether there is a blank in the layout at the end. -/
theorem last?_iff (h : Composed names r es) :
    r.content.last? = some ' ' ↔ (es.rtakeWhile Entry.isLayout).any Entry.isBlank = true := by
  rw [Buffer.last?_eq_getLast?, h.content, compose_eq_rdropWhile, gap]
  split
  · next hb => simp [hb]
  · next hb =>
    rw [List.append_nil, iff_false_right hb]
    intro hlast
    by_cases hn : es.rdropWhile Entry.isLayout = []
    · rw [hn] at hlast
      cases hlast
    · obtain ⟨c, hc, hblank⟩ := exists_getLast?_compose h.firm hn
      rw [Option.mem_def.mp hc] at hlast
      cases hlast
      exact absurd hblank (by decide)

theorem firm_concat (h : Composed names r es) {e : Entry}
    (he : e.isLayout = false → e.Firm names r.kind) :
    ∀ f ∈ es ++ [e], f.isLayout = false → f.Firm names r.kind := by
  intro f hf
  rcases List.mem_append.mp hf with hf | hf
  · exact h.firm f hf
  · rw [List.mem_singleton.mp hf]
    exact he

theorem content_concat_layout (h : Composed names r es) (hk : r.kind ≠ .root) {t : Token}
    (hl : (Entry.token t).isLayout = true) :
    r.content.toList ++ r.added t = compose names r.kind (es ++ [.token t]) := by
  rw [compose_eq_rdropWhile names r.kind (es ++ [Entry.token t]),
    List.rdropWhile_concat_pos _ _ _ hl, List.rtakeWhile_concat_pos _ _ _ hl, h.content,
    compose_eq_rdropWhile, List.append_assoc]
  congr 1
  have hlast := h.last?_iff
  obtain ⟨kind, value, line⟩ := t
  cases kind with
  | string | text => simp [Entry.isLayout] at hl
  | comment =>
    have hadded : r.added ⟨.comment, value, line⟩ = [] := by
      cases hr : r.kind <;> simp_all [added]
    simp [hadded, gap, Entry.isBlank]
  | whitespace =>
    have hadded : r.added ⟨.whitespace, value, line⟩ =
        if r.content.last? = some ' ' then [] else [' '] := by
      cases hr : r.kind <;> simp_all [added]
    by_cases hb : (es.rtakeWhile Entry.isLayout).any Entry.isBlank = true
    · rw [hadded, if_pos (hlast.mpr hb)]
      simp [gap, Entry.isBlank, hb]
    · rw [hadded, if_neg (mt hlast.mp hb)]
      simp [gap, Entry.isBlank, hb]

theorem accept (h : Composed names r es) (hk : r.kind ≠ .root) {t : Token}
    (ha : t.kind.Admits t.value) (d : Delimiters) :
    Composed names (r.accept d t) (es ++ [.token t]) := by
  constructor
  · rw [accept_toList, accept_kind]
    cases hl : (Entry.token t).isLayout with
    | true => exact h.content_concat_layout hk hl
    | false =>
      rw [compose_concat _ _ _ hl, h.content, List.append_cancel_left_eq]
      obtain ⟨kind, value, line⟩ := t
      cases kind with
      | comment | whitespace => simp [Entry.isLayout] at hl
      | string => cases hr : r.kind <;> simp_all [added, Entry.written, sheetLiteral]
      | text => cases hr : r.kind <;> simp_all [added, Entry.written]
  · rw [accept_kind]
    exact h.firm_concat (firm_token ha)

theorem fold (h : Composed names r es) (hk : r.kind ≠ .root) {child : Region}
    (hc : child.kind = r.kind.child) :
    Composed names (r.fold names (child.render names))
      (es ++ [.folded (child.render names)]) := by
  constructor
  · rw [fold_kind, compose_concat _ _ _ rfl, ← h.content]
    cases hr : r.kind with
    | root => exact absurd hr hk
    | sheet | expr => simp [Region.fold, hr, Entry.written]
  · rw [fold_kind]
    exact h.firm_concat fun _ => firm_folded hk hc

/-- Trimming takes the space in front and the space behind. -/
theorem trim_content (h : Composed names r es) (hk : r.kind = .sheet) :
    Text.trim r.content.toList = compose names .sheet (core es) := by
  have hfirm := h.firm
  rw [hk] at hfirm
  have hfront : (gap (lead es)).dropWhile Text.isBlank = [] := by
    rw [gap]
    split <;> decide
  have hback : ((gap (trail es)).reverse.dropWhile Text.isBlank).reverse = [] := by
    rw [gap]
    split <;> decide
  rw [h.content, hk, compose_eq_core]
  by_cases hn : core es = []
  · have hdrop : es.dropWhile Entry.isLayout = [] := by
      cases hcons : es.dropWhile Entry.isLayout with
      | nil => rfl
      | cons e tail =>
        have hl : e.isLayout = true := List.rdropWhile_eq_nil_iff.mp hn e (by simp [hcons])
        rw [isLayout_of_head?_dropWhile (by rw [hcons]; rfl)] at hl
        cases hl
    have htrail : trail es = [] := by
      rw [trail, hdrop, List.rtakeWhile_nil]
    have hnil : compose names .sheet [] = [] := rfl
    rw [hn, htrail, hnil, gap, gap]
    split <;> decide
  · rw [Text.trim_append_solid (solid_compose_core hfirm hn), hfront, hback]
    simp

end Composed

/-- The text of the region is composed of its entries, with the layout in front and behind set off
from the rest; and of a stylesheet the rest is what is left, between quotes. -/
structure Spaced (names : Runtime) (r : Region) (es : List Entry) : Prop where
  content : r.content.toList = compose names r.kind es
  ends : compose names r.kind es =
    gap (lead es) ++ compose names r.kind (core es) ++ gap (trail es)
  sheet : r.kind = .sheet →
    r.render names = ['\''] ++ compose names .sheet (core es) ++ ['\'']

theorem Composed.spaced {names : Runtime} {r : Region} {es : List Entry}
    (h : Composed names r es) : Spaced names r es where
  content := h.content
  ends := compose_eq_core names r.kind es
  sheet := by
    intro hk
    simp only [render, hk, h.trim_content hk]

end Region

namespace Machine

open Region

theorem Hands.admits {d : Dialect} {m : Machine} {t : Token} (h : Hands d m t) :
    t.kind.Admits t.value := by
  cases h with
  | scanned kind value hl => exact (admits_of_lexeme_token hl).2
  | text c hl ho he =>
    obtain ⟨rest, -, hq, -, hb⟩ := cons_of_lexeme_plain hl
    exact ⟨c, hq, hb, rfl⟩

theorem Reaches.composed {d : Dialect} {source : List Char} {line : Int} {m : Machine}
    (h : Reaches (begun d source line) m) :
    List.Forall₂ (fun r es => r.kind ≠ .root → Composed d.toRuntime r es) m.stack
      (m.histories d.toRuntime) := by
  apply h.forall₂_histories
  · intro kind startLine dialect _
    exact composed_fresh _ kind startLine dialect
  · intro m t own hh hc hk
    rw [accept_kind] at hk
    exact (hc hk).accept hk hh.admits d.toDelimiters
  · intro child r own hchild hc hk
    rw [fold_kind] at hk
    exact (hc hk).fold hk hchild

/-- However many rounds a run has made, every open stylesheet and host expression holds what its
entries come to. -/
theorem spaced_runFor (d : Dialect) (source : List Char) (line : Int) (rounds : Nat) :
    List.Forall₂ (fun r es => r.kind ≠ .root → Spaced d.toRuntime r es)
      ((begun d source line).runFor rounds).machine.stack
      (((begun d source line).runFor rounds).machine.histories d.toRuntime) := by
  obtain ⟨m, n, hp, he⟩ := exists_reaches_runFor rounds (begun_nested d source line)
  rw [he]
  exact hp.composed.imp fun r es hc hk => (hc hk).spaced

end Machine
end InlineSheet
