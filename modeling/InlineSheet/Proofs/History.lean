import InlineSheet.Proofs.Trace
import Mathlib.Data.List.Forall2

/-!
# What each open region has taken in

A region takes in the tokens handed to it and the worth of the regions that close inside it.
`histories` reads this off the events, one list for each open region. Main statement: what holds of
a fresh region, and stays when one more entry is taken in, holds of every open region and its
history wherever a run comes. Regions that are already closed have no history here.
-/
namespace InlineSheet

/-- One thing that a region takes in. -/
inductive Region.Entry where
  | token (t : Token)
  /-- What a region was worth that closed inside this one. -/
  | folded (output : List Char)
  deriving DecidableEq

/-- The histories of the open regions, innermost first, once an event is added to those so far. -/
def Event.extend (names : Runtime) (histories : List (List Region.Entry)) (e : Event) :
    List (List Region.Entry) :=
  match e, histories with
  | .token _ t, own :: below => (own ++ [.token t]) :: below
  | .opened _ _, below => [] :: below
  | .closed child _, _ :: own :: below => (own ++ [.folded (child.render names)]) :: below
  | _, histories => histories

namespace Machine

/-- The histories of all open regions, from the inside out. -/
def histories (names : Runtime) (m : Machine) : List (List Region.Entry) :=
  m.trace.toList.foldl (Event.extend names) [[]]

/-- The history of the innermost region. -/
def history (names : Runtime) (m : Machine) : List Region.Entry := (m.histories names).headD []

theorem histories_push {names : Runtime} {m m' : Machine} {e : Event}
    (h : m'.trace = m.trace.push e) :
    m'.histories names = Event.extend names (m.histories names) e := by
  rw [histories, h, Array.toList_push, List.foldl_append]
  rfl

/-- A token that the next round hands to the innermost region. -/
inductive Hands (d : Dialect) (m : Machine) : Token → Prop
  | scanned (kind : Token.Kind) (value : List Char)
      (hl : lexeme m.cursor.rest = .token kind value) :
      Hands d m { kind, value, line := m.cursor.line }
  | text (c : Char) (hl : lexeme m.cursor.rest = .plain c)
      (ho : m.cursor.startsWith (m.top.childOpener d.toDelimiters) = false)
      (he : ¬ m.top.Ends d.toDelimiters m.cursor) :
      Hands d m { kind := .text, value := [c], line := m.cursor.line }

section Kept

variable {d : Dialect} {P : Region → List Region.Entry → Prop}

theorem Move.forall₂_histories {m m' : Machine} (hm : Move d m m') (hn : Nested d m.stack)
    (hnew : ∀ kind startLine dialect, P { kind, startLine, dialect } [])
    (htoken : ∀ (t : Token) (own : List Region.Entry), Hands d m t → P m.top own →
      P (m.top.accept d.toDelimiters t) (own ++ [.token t]))
    (hfold : ∀ (child r : Region) (own : List Region.Entry), child.kind = r.kind.child → P r own →
      P (r.fold d.toRuntime (child.render d.toRuntime))
        (own ++ [.folded (child.render d.toRuntime)]))
    (h : List.Forall₂ P m.stack (m.histories d.toRuntime)) :
    List.Forall₂ P m'.stack (m'.histories d.toRuntime) := by
  obtain ⟨own, outer, htop, hbelow, hh⟩ := List.forall₂_cons_left_iff.mp h
  cases hm with
  | token kind value hl =>
    rw [histories_push (m := m) rfl, hh]
    exact .cons (htoken _ own (.scanned kind value hl) htop) hbelow
  | enter c hl ho =>
    rw [histories_push (m := m) rfl]
    exact .cons (hnew _ _ _) h
  | leave c hl ho he parent below hb =>
    have hst : m.stack = m.top :: parent :: below := congrArg (m.top :: ·) hb
    rw [hst] at hn
    rw [hb] at hbelow
    obtain ⟨around, rest, hparent, hrest, hr⟩ := List.forall₂_cons_left_iff.mp hbelow
    rw [histories_push (m := m) rfl, hh, hr]
    exact .cons (hfold m.top parent around hn.1.1 hparent) hrest
  | text c hl ho he =>
    rw [histories_push (m := m) rfl, hh]
    exact .cons (htoken _ own (.text c hl ho he) htop) hbelow

/-- What a fresh region has, and keeps with each entry that a round adds, every open region has. -/
theorem Reaches.forall₂_histories {source : List Char} {line : Int} {m : Machine}
    (h : Reaches (begun d source line) m)
    (hnew : ∀ kind startLine dialect, P { kind, startLine, dialect } [])
    (htoken : ∀ (m : Machine) (t : Token) (own : List Region.Entry), Hands d m t → P m.top own →
      P (m.top.accept d.toDelimiters t) (own ++ [.token t]))
    (hfold : ∀ (child r : Region) (own : List Region.Entry), child.kind = r.kind.child → P r own →
      P (r.fold d.toRuntime (child.render d.toRuntime))
        (own ++ [.folded (child.render d.toRuntime)])) :
    List.Forall₂ P m.stack (m.histories d.toRuntime) :=
  (h.induct (begun_nested d source line)
    (P := fun m => List.Forall₂ P m.stack (m.histories d.toRuntime)) (.cons (hnew _ _ _) .nil)
    fun a _ hn hm ha => hm.forall₂_histories hn hnew (htoken a) hfold ha).2

theorem history_of_forall₂ {m : Machine} (h : List.Forall₂ P m.stack (m.histories d.toRuntime)) :
    P m.top (m.history d.toRuntime) := by
  obtain ⟨own, outer, htop, -, hh⟩ := List.forall₂_cons_left_iff.mp h
  rw [history, hh]
  exact htop

end Kept

end Machine
end InlineSheet
