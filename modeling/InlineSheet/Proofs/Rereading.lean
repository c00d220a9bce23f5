import InlineSheet.Proofs.HostText
import InlineSheet.Proofs.Quotation
import InlineSheet.Proofs.Seam
import InlineSheet.Proofs.Spacing
import Mathlib.Data.List.Chain

/-!
# Reading a host expression again

A host expression leaves its comments out, so that characters come together which stood apart in the
source. `Token.Respaced` says what tokens are without their comments and with one space for the blanks
between two others. Main statement: the text of a closed host expression splits into just these pieces
again. No slash comes to stand before a star or another slash: what stands right behind a slash that is
text begins with neither, so it is no comment, and it is kept or leaves a space. Host expressions with a
stylesheet in them are left out.
-/
namespace InlineSheet

/-- Comments and blanks. -/
def Token.Kind.isLayout : Token.Kind → Bool
  | .comment | .whitespace => true
  | .string | .text => false

/-- What layout between two other tokens comes to: one space if there is a blank in it. -/
def Token.spaced (layout : List Token) : List (Token.Kind × List Char) :=
  if layout.any (·.kind = .whitespace) then [(.whitespace, [' '])] else []

/-- The kinds and texts of tokens, without comments, and with one space for each stretch of layout that
has a blank in it. -/
inductive Token.Respaced : List Token → List (Token.Kind × List Char) → Prop
  | layout {gap : List Token} (hg : ∀ t ∈ gap, t.kind.isLayout = true) : Respaced gap (spaced gap)
  | solid {gap ts : List Token} {t : Token} {ps : List (Token.Kind × List Char)}
      (hg : ∀ t ∈ gap, t.kind.isLayout = true) (ht : t.kind.isLayout = false) (h : Respaced ts ps) :
      Respaced (gap ++ t :: ts) (spaced gap ++ (t.kind, t.value) :: ps)

theorem Region.Entry.isLayout_token (t : Token) : (Entry.token t).isLayout = t.kind.isLayout := by
  obtain ⟨kind, value, line⟩ := t
  cases kind <;> rfl

namespace Token

theorem spaced_flatMap (layout : List Token) :
    (spaced layout).flatMap Prod.snd = Region.gap (layout.map .token) := by
  have hany : (layout.map Region.Entry.token).any Region.Entry.isBlank =
      layout.any (·.kind = .whitespace) := by
    rw [List.any_map]
    rfl
  rw [spaced, Region.gap, hany]
  split <;> rfl

theorem exists_respaced (ts : List Token) : ∃ ps, Respaced ts ps := by
  induction ts with
  | nil => exact ⟨_, .layout nofun⟩
  | cons t ts ih =>
    obtain ⟨ps, h⟩ := ih
    cases ht : t.kind.isLayout with
    | false =>
      have hsolid : Respaced ([] ++ t :: ts) _ := .solid nofun ht h
      exact ⟨_, hsolid⟩
    | true =>
      cases h with
      | layout hg => exact ⟨_, .layout (List.forall_mem_cons.mpr ⟨ht, hg⟩)⟩
      | @solid gap ts' t' ps' hg ht' h' =>
        have hsolid : Respaced ((t :: gap) ++ t' :: ts') _ :=
          .solid (List.forall_mem_cons.mpr ⟨ht, hg⟩) ht' h'
        exact ⟨_, hsolid⟩

namespace Respaced

variable {ts : List Token} {ps : List (Token.Kind × List Char)}

theorem ne_comment (h : Respaced ts ps) : ∀ p ∈ ps, p.1 ≠ .comment := by
  have hspaced (gap : List Token) : ∀ p ∈ spaced gap, p.1 ≠ .comment := by
    intro p hp
    unfold spaced at hp
    split at hp
    · rw [List.mem_singleton.mp hp]
      decide
    · cases hp
  induction h with
  | layout hg => exact hspaced _
  | @solid gap ts t ps hg ht _ ih =>
    intro p hp
    rcases List.mem_append.mp hp with hp | hp
    · exact hspaced gap p hp
    · rcases List.mem_cons.mp hp with rfl | hp
      · intro hk
        rw [show t.kind = .comment from hk] at ht
        cases ht
      · exact ih p hp

/-- All that is no layout is kept, in its order. -/
theorem filter_eq (h : Respaced ts ps) :
    ps.filter (fun p => !p.1.isLayout) =
      (ts.filter fun t => !t.kind.isLayout).map fun t => (t.kind, t.value) := by
  have hspaced (gap : List Token) : (spaced gap).filter (fun p => !p.1.isLayout) = [] := by
    unfold spaced
    split <;> rfl
  have hgap {gap : List Token} (hg : ∀ t ∈ gap, t.kind.isLayout = true) :
      gap.filter (fun t => !t.kind.isLayout) = [] := by
    rw [List.filter_eq_nil_iff]
    intro t ht
    simp [hg t ht]
  induction h with
  | layout hg => rw [hspaced, hgap hg]; rfl
  | solid hg ht _ ih => simp [hspaced, hgap hg, ht, ih]

/-- What the tokens come to in a host expression is what the pieces come to. -/
theorem compose_eq (h : Respaced ts ps) (names : Runtime) :
    Region.compose names .expr (ts.map .token) = ps.flatMap Prod.snd := by
  have hlayout {gap : List Token} (hg : ∀ t ∈ gap, t.kind.isLayout = true) :
      ∀ e ∈ gap.map Region.Entry.token, e.isLayout = true := by
    intro e he
    obtain ⟨t, ht, rfl⟩ := List.mem_map.mp he
    rw [Region.Entry.isLayout_token, hg t ht]
  induction h with
  | layout hg => rw [Region.compose_layout _ _ (hlayout hg), spaced_flatMap]
  | @solid gap ts t ps hg ht _ ih =>
    have hsolid : (Region.Entry.token t).isLayout = false :=
      (Region.Entry.isLayout_token t).trans ht
    have hwritten : (Region.Entry.token t).written names .expr = t.value := by
      simp [Region.Entry.written]
    rw [List.map_append, List.map_cons, Region.compose_append _ _ (by simp [hsolid]),
      Region.compose_layout _ _ (hlayout hg), Region.compose_cons _ _ _ hsolid, ih, hwritten,
      List.flatMap_append, List.flatMap_cons, spaced_flatMap]

end Respaced
end Token

namespace Comment

/-- A slash in front of this text begins no comment. -/
def Apart (cs : List Char) : Prop := cs.head? ≠ some '/' ∧ cs.head? ≠ some '*'

theorem Apart.of_append {cs rest : List Char} (h : Apart (cs ++ rest)) : Apart cs := by
  cases cs with
  | nil => exact ⟨nofun, nofun⟩
  | cons c cs => exact h

theorem Apart.append {cs : List Char} (h : Apart cs) (hne : cs ≠ []) (rest : List Char) :
    Apart (cs ++ rest) := by
  obtain ⟨c, cs, rfl⟩ := List.exists_cons_of_ne_nil hne
  exact h

theorem apart_of_scan {rest : List Char} (h : (scan ('/' :: rest)).1 = .text) : Apart rest := by
  constructor <;> intro hhead <;> obtain ⟨tail, rfl⟩ := List.head?_eq_some_iff.mp hhead <;> cases h

end Comment

/-- A slash that is text. -/
def Token.IsSlash (t : Token) : Prop := t.kind = .text ∧ t.value = ['/']

/-- If the first of the two tokens is a slash, the second makes no comment of it. -/
def Token.Clear (t t' : Token) : Prop := t.IsSlash → Comment.Apart t'.value

def Event.IsSlash : Event → Prop
  | .token _ t => t.IsSlash
  | _ => False

namespace Machine

variable {d : Dialect} {m m' : Machine}

/-- Behind each slash that is text comes what makes no comment of it, among the events and ahead. -/
structure Cleared (d : Delimiters) (m : Machine) : Prop where
  chain : m.trace.toList.IsChain fun e e' => e.IsSlash → Comment.Apart (e'.source d)
  ahead : ∀ e ∈ m.trace.toList.getLast?, e.IsSlash → Comment.Apart m.cursor.rest

theorem took_apart {kind : Token.Kind} {value : List Char}
    (hl : lexeme m.cursor.rest = .token kind value) (hk : kind = .text) :
    Comment.Apart (m.took d.toDelimiters kind value).cursor.rest := by
  subst hk
  obtain rfl := eq_slash_of_lexeme_text hl
  obtain ⟨tail, htail⟩ := (admits_of_lexeme_token hl).1
  rw [← htail, List.singleton_append, lexeme_slash] at hl
  have hrest : (m.took d.toDelimiters .text ['/']).cursor.rest = tail := by
    change m.cursor.rest.drop 1 = tail
    rw [← htail]
    rfl
  rw [hrest]
  exact Comment.apart_of_scan (Lexeme.token.inj hl).1

/-- A slash that a round takes as text begins no comment with what is left. -/
theorem Move.apart (hm : Move d m m') :
    ∃ e : Event, m'.trace = m.trace.push e ∧ (e.IsSlash → Comment.Apart m'.cursor.rest) := by
  cases hm with
  | token kind value hl => exact ⟨_, rfl, fun hs => took_apart hl hs.1⟩
  | enter c hl ho => exact ⟨_, rfl, False.elim⟩
  | leave c hl ho he parent below hb => exact ⟨_, rfl, False.elim⟩
  | text c hl ho he =>
    obtain ⟨rest, -, -, hslash, -⟩ := cons_of_lexeme_plain hl
    exact ⟨_, rfl, fun hs => absurd (List.cons.inj hs.2).1 hslash⟩

theorem Move.cleared (hm : Move d m m') (h : m.Cleared d.toDelimiters) :
    m'.Cleared d.toDelimiters := by
  obtain ⟨e, hpush, -, -, hrest⟩ := hm.event
  obtain ⟨e', hpush', hapart⟩ := hm.apart
  obtain ⟨rfl, -⟩ := Array.push_eq_push.mp (hpush.symm.trans hpush')
  have htrace : m'.trace.toList = m.trace.toList ++ [e] := by rw [hpush, Array.toList_push]
  constructor
  · rw [htrace]
    refine h.chain.append (.singleton e) fun last hlast next hnext hs => ?_
    obtain rfl : e = next := by simpa using hnext
    have hahead := h.ahead last hlast hs
    rw [hrest] at hahead
    exact hahead.of_append
  · intro last hlast hs
    rw [htrace, List.getLast?_concat] at hlast
    obtain rfl : e = last := by simpa using hlast
    exact hapart hs

theorem Reaches.cleared {source : List Char} {line : Int} (h : Reaches (begun d source line) m) :
    m.Cleared d.toDelimiters :=
  (h.induct (begun_nested d source line) (P := Cleared d.toDelimiters) ⟨.nil, nofun⟩
    fun _ _ _ hm ha => hm.cleared ha).2

end Machine

/-- Tokens that were taken one after the other keep each slash clear. -/
theorem Transpiler.isChain_of_trace {d : Dialect} {file : String} {line : Int} {source : String}
    {before behind : List Event} {ts : List Token} {k : Region.Kind}
    (h : (Transpiler.new d file line source).run.1.machine.trace.toList =
      before ++ (ts.map (.token k) ++ behind)) : ts.IsChain Token.Clear := by
  obtain ⟨m, hp, htrace⟩ := Machine.exists_reaches_run (Machine.begun_nested d source.toList line)
  have hchain := hp.cleared.chain
  rw [← htrace, ← (Transpiler.run_new d file line source).1, h] at hchain
  exact (List.isChain_map (Event.token k)).mp hchain.right_of_append.left_of_append

/-- The kind and the text of a lexeme. A literal that is not closed is no piece. -/
def Lexeme.piece? : Lexeme → Option (Token.Kind × List Char)
  | .token kind value => some (kind, value)
  | .plain c => some (.text, [c])
  | .nothing | .broken _ _ => none

/-- The pieces of a text, split with no regard to regions. -/
def resplit (cs : List Char) : List (Option (Token.Kind × List Char)) :=
  (lexemes cs).map fun p => p.1.piece?

theorem resplit_nil : resplit [] = [] := by
  rw [resplit, lexemes_nil, List.map_nil]

theorem resplit_append {kind : Token.Kind} {value rest : List Char}
    (hl : lexeme (value ++ rest) = .token kind value) :
    resplit (value ++ rest) = some (kind, value) :: resplit rest := by
  rw [resplit, lexemes_token hl, List.drop_left]
  rfl

theorem resplit_spaced (gap : List Token) (rest : List Char) :
    resplit ((Token.spaced gap).flatMap Prod.snd ++ rest) =
      (Token.spaced gap).map some ++ resplit rest := by
  unfold Token.spaced
  split
  · exact resplit_append (lexeme_blank (by decide) rest)
  · rfl

/-- A token is read again in front of a text, unless it is a slash that becomes a comment there. -/
theorem Token.resplit_value {t : Token} (ha : t.kind.Admits t.value)
    (ht : t.kind.isLayout = false) {rest : List Char} (hr : t.IsSlash → Comment.Apart rest) :
    resplit (t.value ++ rest) = some (t.kind, t.value) :: resplit rest := by
  obtain ⟨kind, value, line⟩ := t
  cases kind with
  | comment | whitespace => cases ht
  | string => exact resplit_append (lexeme_literal ha rest)
  | text =>
    obtain ⟨c, hq, hb, rfl⟩ := ha
    by_cases hc : c = '/'
    · subst hc
      obtain ⟨hslash, hstar⟩ := hr ⟨rfl, rfl⟩
      apply resplit_append
      rw [List.singleton_append, lexeme_slash, Comment.scan_text hslash hstar]
    · rw [resplit, List.singleton_append, lexemes_plain (lexeme_plain hq hc hb rest)]
      rfl

namespace Token.Respaced

variable {ts : List Token} {ps : List (Token.Kind × List Char)}

/-- Layout that comes behind a slash begins with a blank. -/
theorem apart_spaced {gap : List Token} (hg : ∀ t ∈ gap, t.kind.isLayout = true)
    (ha : ∀ t ∈ gap, t.kind.Admits t.value) (hfirst : ∀ t ∈ gap.head?, Comment.Apart t.value)
    (hne : gap ≠ []) (rest : List Char) :
    Comment.Apart ((spaced gap).flatMap Prod.snd ++ rest) := by
  obtain ⟨t, gap, rfl⟩ := List.exists_cons_of_ne_nil hne
  have hadmits := ha t List.mem_cons_self
  have hlayout := hg t List.mem_cons_self
  have hapart := hfirst t rfl
  obtain ⟨kind, value, line⟩ := t
  cases kind with
  | string | text => cases hlayout
  | comment =>
    rcases hadmits with ⟨⟨tail, ht⟩, -⟩ | ⟨tail, ht⟩ <;>
      exact absurd (by rw [← ht]; rfl) hapart.1
  | whitespace =>
    have hspace : spaced (⟨.whitespace, value, line⟩ :: gap) = [(.whitespace, [' '])] := rfl
    rw [hspace]
    exact ⟨nofun, nofun⟩

theorem apart (h : Respaced ts ps) (ha : ∀ t ∈ ts, t.kind.Admits t.value)
    (hfirst : ∀ t ∈ ts.head?, Comment.Apart t.value) : Comment.Apart (ps.flatMap Prod.snd) := by
  cases h with
  | layout hg =>
    by_cases hne : ts = []
    · subst hne
      exact ⟨nofun, nofun⟩
    · rw [← List.append_nil (List.flatMap _ _)]
      exact apart_spaced hg ha hfirst hne []
  | @solid gap ts t ps hg ht h =>
    rw [List.flatMap_append, List.flatMap_cons]
    by_cases hne : gap = []
    · subst hne
      exact (hfirst t rfl).append (ha t List.mem_cons_self).ne_nil _
    · refine apart_spaced hg (fun t ht => ha t (List.mem_append_left _ ht)) (fun t ht => ?_) hne _
      refine hfirst t ?_
      rw [List.head?_append, Option.mem_def.mp ht]
      rfl

/-- Tokens that keep each slash clear are read again without their layout. -/
theorem resplit_eq (h : Respaced ts ps) (ha : ∀ t ∈ ts, t.kind.Admits t.value)
    (hc : ts.IsChain Clear) : resplit (ps.flatMap Prod.snd) = ps.map some := by
  induction h with
  | @layout gap hg =>
    have hs := resplit_spaced gap []
    rwa [List.append_nil, resplit_nil, List.append_nil] at hs
  | @solid gap ts t ps hg ht h ih =>
    obtain ⟨hnext, htail⟩ := List.isChain_cons.mp hc.right_of_append
    obtain ⟨hadmits, hrest⟩ := List.forall_mem_cons.mp (List.forall_mem_append.mp ha).2
    have hclear (hs : t.IsSlash) : Comment.Apart (ps.flatMap Prod.snd) :=
      h.apart hrest fun t' ht' => hnext t' ht' hs
    rw [List.flatMap_append, List.flatMap_cons, resplit_spaced,
      Token.resplit_value hadmits ht hclear, ih hrest htail, List.map_append, List.map_cons]

end Token.Respaced

theorem Region.Composed.foldl_accept {names : Runtime} {r : Region} {es : List Entry}
    (h : Composed names r es) (hk : r.kind ≠ .root) {ts : List Token}
    (ha : ∀ t ∈ ts, t.kind.Admits t.value) (d : Delimiters) :
    Composed names (ts.foldl (Region.accept d) r) (es ++ ts.map .token) := by
  induction ts generalizing r es with
  | nil => rwa [List.map_nil, List.append_nil]
  | cons t ts ih =>
    obtain ⟨hadmits, hrest⟩ := List.forall_mem_cons.mp ha
    have hnext := ih (h.accept hk hadmits d) (by rwa [accept_kind]) hrest
    rwa [List.append_assoc] at hnext

/-- A closed host expression of tokens alone is read again as the same literals and text, with single
spaces for the blanks, and without a comment. -/
theorem Transpiler.resplit_expr (d : Dialect) (file : String) (line : Int) (source : String)
    (before behind : List Event) (start region : Region) (depth : Nat) (ts : List Token)
    (endLine : Int)
    (htrace : (Transpiler.new d file line source).run.1.machine.trace.toList =
      before ++ .opened start depth :: (ts.map (.token .expr) ++ .closed region endLine :: behind))
    (hkind : region.kind = .expr) :
    ∃ pieces, resplit region.content.toList = pieces.map some ∧ Token.Respaced ts pieces ∧
      (∀ p ∈ pieces, p.1 ≠ .comment) ∧
      pieces.filter (fun p => !p.1.isLayout) =
        (ts.filter fun t => !t.kind.isLayout).map fun t => (t.kind, t.value) := by
  obtain ⟨hadmits, hcontent, rfl⟩ := Transpiler.eq_foldl_of_trace htrace
  have hchain : ts.IsChain Token.Clear := by
    rw [← List.singleton_append, ← List.append_assoc] at htrace
    exact Transpiler.isChain_of_trace htrace
  rw [Region.foldl_accept_kind] at hkind
  have hfresh : Region.Composed d.toRuntime start [] := ⟨by rw [hcontent]; rfl, nofun⟩
  have hcomposed := hfresh.foldl_accept (by rw [hkind]; decide) hadmits d.toDelimiters
  obtain ⟨pieces, h⟩ := Token.exists_respaced ts
  refine ⟨pieces, ?_, h, h.ne_comment, h.filter_eq⟩
  rw [hcomposed.content, Region.foldl_accept_kind, hkind, List.nil_append, h.compose_eq]
  exact h.resplit_eq hadmits hchain

/-- Between the two letters there is only a comment, and between the slash and the star there is a
blank besides one. -/
theorem Transpiler.resplit_expr_glued :
    (Transpiler.new .standard "page" 1 "<<[a/*x*/b/ /*y*/*]>>").run.1.machine.trace.toList =
      [.opened { kind := .sheet } 1] ++ .opened { kind := .expr } 2 ::
        ([⟨.text, ['a'], 1⟩, ⟨.comment, "/*x*/".toList, 1⟩, ⟨.text, ['b'], 1⟩, ⟨.text, ['/'], 1⟩,
          ⟨.whitespace, [' '], 1⟩, ⟨.comment, "/*y*/".toList, 1⟩, ⟨.text, ['*'], 1⟩].map
            (.token .expr) ++
        .closed { kind := .expr, content := ⟨"* /ba".toList⟩ } 1 ::
          [.closed { kind := .sheet, content := ⟨"' + )* /ba(rpxEsj.ssc.htaehs + '".toList⟩ } 1]) ∧
    ∃ pieces : List (Token.Kind × List Char), resplit "ab/ *".toList = pieces.map some ∧
      pieces.filter (fun p => !p.1.isLayout) =
        [(.text, ['a']), (.text, ['b']), (.text, ['/']), (.text, ['*'])] := by
  refine (and_iff_left_of_imp fun htrace => ?_).mpr (by decide +kernel)
  obtain ⟨pieces, hsplit, -, -, hfilter⟩ :=
    Transpiler.resplit_expr _ _ _ _ _ _ _ _ _ _ _ htrace rfl
  exact ⟨pieces, hsplit, hfilter⟩

end InlineSheet
