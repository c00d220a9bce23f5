import InlineSheet.Proofs.Seam
import InlineSheet.Proofs.Variation
import Mathlib.Data.List.Induction

/-!
# Layout inside regions

`Layout` is a text of blanks and closed block comments. Inside a region it is worth one space, and
nothing at all behind a blank. Main statement: layout that is put in behind a blank of a region
changes no output, and of a failure only the lines. The line on which the failure stands moves down
by the line breaks put in; the one on which the failing region begins moves if the region opened
behind the blank, which `openedAt` tells from the events.
-/
namespace InlineSheet

/-- Blanks and closed block comments in any order. -/
inductive Layout : List Char → Prop
  | nil : Layout []
  | blank {c : Char} {cs : List Char} (hc : Text.isBlank c = true) (h : Layout cs) :
      Layout (c :: cs)
  | comment {value cs : List Char} (hv : Comment.Block value) (h : Layout cs) :
      Layout (value ++ cs)

theorem Event.source_outline (d : Delimiters) (e : Event) : e.outline.source d = e.source d := by
  cases e <;> rfl

/-- How far the input is read behind an event, and where the text of each open region begins,
innermost first. -/
def Outline.locate (d : Delimiters) (place : Nat × List Nat) (o : Outline) : Nat × List Nat :=
  let here := place.1 + (o.source d).length
  match o with
  | .token _ _ _ => (here, place.2)
  | .opened _ _ => (here, here :: place.2)
  | .closed _ => (here, place.2.tail)

/-- Of the regions open in the end, those that opened in these events begin where the events do or
behind. -/
theorem Outline.foldl_locate (d : Delimiters) (os : List Outline) (n : Nat) (ps : List Nat) :
    ∃ newer older,
      os.foldl (locate d) (n, ps) = (n + (os.flatMap (source d)).length, newer ++ older) ∧
      newer.length = openSince os ∧
      (∀ p ∈ newer, n ≤ p ∧ p ≤ n + (os.flatMap (source d)).length) ∧ older <:+ ps := by
  induction os using List.reverseRecOn with
  | nil => exact ⟨[], ps, rfl, rfl, nofun, List.suffix_refl ps⟩
  | append_singleton os o ih =>
    obtain ⟨newer, older, hfold, hlen, hnewer, holder⟩ := ih
    have hhere : n + ((os ++ [o]).flatMap (source d)).length =
        n + (os.flatMap (source d)).length + (o.source d).length := by
      simp [Nat.add_assoc]
    rw [hhere, List.foldl_append, List.foldl_cons, List.foldl_nil, hfold, openSince_concat]
    have hbound : ∀ p ∈ newer,
        n ≤ p ∧ p ≤ n + (os.flatMap (source d)).length + (o.source d).length := fun p hp =>
      ⟨(hnewer p hp).1, Nat.le_trans (hnewer p hp).2 (Nat.le_add_right _ _)⟩
    cases o with
    | token _ _ _ => exact ⟨newer, older, rfl, hlen, hbound, holder⟩
    | opened _ _ =>
      refine ⟨_ :: newer, older, rfl, congrArg (· + 1) hlen, ?_, holder⟩
      refine List.forall_mem_cons.mpr ⟨⟨?_, Nat.le_refl _⟩, hbound⟩
      rw [Nat.add_assoc]
      exact Nat.le_add_right _ _
    | closed _ =>
      cases newer with
      | nil =>
        refine ⟨[], older.tail, rfl, ?_, nofun, (List.tail_suffix older).trans holder⟩
        rw [count, ← hlen]
        rfl
      | cons p newer =>
        refine ⟨newer, older, rfl, ?_, fun q hq => hbound q (List.mem_cons_of_mem p hq), holder⟩
        rw [count, ← hlen]
        rfl

namespace Machine

/-- Where the text of each open region begins, innermost first; the root is left out. -/
def openings (d : Delimiters) (m : Machine) : List Nat :=
  (m.outlines.foldl (Outline.locate d) (0, [])).2

/-- Where the text of the innermost open region begins; that of the root begins in front. -/
def openedAt (d : Delimiters) (m : Machine) : Nat := (m.openings d).headD 0

variable {d : Dialect} {m : Machine}

/-- What has been read, told from the outlines of the events. -/
theorem flatMap_outlines (d : Delimiters) (m : Machine) :
    m.outlines.flatMap (Outline.source d) = m.trace.toList.flatMap (Event.source d) := by
  simp only [outlines, List.flatMap_map, Event.source_outline]

theorem Traced.length_outlines {source : List Char} {line : Int} (h : Traced d source line m) :
    (m.outlines.flatMap (Outline.source d.toDelimiters)).length + m.cursor.rest.length =
      source.length := by
  rw [flatMap_outlines, ← List.length_append, h.partition]

/-- The innermost region begins behind a place just if one that opened since is still open. -/
theorem lt_openedAt_iff {m' : Machine} {os : List Outline} (hos : m'.outlines = m.outlines ++ os)
    {n : Nat} (hn : n < (m.outlines.flatMap (Outline.source d.toDelimiters)).length)
    (hle : ∀ p ∈ m.openings d.toDelimiters, p ≤ n) :
    n < m'.openedAt d.toDelimiters ↔ Outline.openSince os ≠ 0 := by
  obtain ⟨_, _, hbefore, -⟩ := Outline.foldl_locate d.toDelimiters m.outlines 0 []
  obtain ⟨newer, older, hsince, hlen, hnewer, holder⟩ := Outline.foldl_locate d.toDelimiters os
    (0 + (m.outlines.flatMap (Outline.source d.toDelimiters)).length)
    (m.openings d.toDelimiters)
  have hsplit : m'.openings d.toDelimiters = newer ++ older := by
    rw [openings, hbefore] at hsince
    rw [openings, hos, List.foldl_append, hbefore, hsince]
  rw [openedAt, hsplit, ← hlen]
  cases newer with
  | nil =>
    cases older with
    | nil => simp
    | cons p older =>
      have hp := hle p (holder.mem List.mem_cons_self)
      simp only [List.nil_append, List.headD_cons, List.length_nil, ne_eq, not_true_eq_false,
        iff_false]
      omega
  | cons p newer =>
    have hp := (hnewer p List.mem_cons_self).1
    simp only [List.cons_append, List.headD_cons, List.length_cons]
    omega

end Machine

/-- Behind a space a region takes layout without a trace in its text. -/
theorem Region.accept_layout (d : Delimiters) {r : Region} (hk : r.kind ≠ .root)
    (hlast : r.content.last? = some ' ') {t : Token}
    (ht : t.kind = .whitespace ∨ t.kind = .comment) : r.accept d t = r := by
  cases hr : r.kind with
  | root => exact absurd hr hk
  | sheet | expr => rcases ht with ht | ht <;> simp [accept, hr, ht, writeSpace, hlast]

theorem Region.last?_accept_blank (d : Delimiters) {r : Region} (hk : r.kind ≠ .root)
    (value : List Char) (line : Int) :
    (r.accept d { kind := .whitespace, value, line }).content.last? = some ' ' := by
  have haccept : r.accept d { kind := .whitespace, value, line } = r.writeSpace := by
    cases hr : r.kind with
    | root => exact absurd hr hk
    | sheet | expr => simp only [accept, hr]
  rw [haccept, writeSpace]
  split
  · assumption
  · simp [Buffer.last?_eq_getLast?]

namespace Machine

/-- The machine has read `cs`, and in its regions nothing has changed. -/
structure PassedOver (cs : List Char) (m m' : Machine) : Prop where
  reaches : Reaches m m'
  rest : m.cursor.rest = cs ++ m'.cursor.rest
  line : m'.cursor.line = m.cursor.line + Cursor.breaks cs
  stack : m'.stack = m.stack

variable {d : Dialect} {m m' : Machine} {cs cs' post : List Char}

namespace PassedOver

theorem top (h : PassedOver cs m m') : m'.top = m.top := (List.cons.inj h.stack).1

theorem rest_eq (h : PassedOver cs m m') (hr : m.cursor.rest = cs ++ post) :
    m'.cursor.rest = post :=
  List.append_cancel_left (h.rest.symm.trans hr)

theorem trans {m'' : Machine} (h : PassedOver cs m m') (h' : PassedOver cs' m' m'') :
    PassedOver (cs ++ cs') m m'' where
  reaches := h.reaches.trans h'.reaches
  rest := by rw [h.rest, h'.rest, List.append_assoc]
  line := by
    rw [h'.line, h.line, Cursor.breaks, Cursor.breaks, Cursor.breaks, List.count_append]
    omega
  stack := h'.stack.trans h.stack

end PassedOver

theorem passedOver_took {kind : Token.Kind} (hl : lexeme m.cursor.rest = .token kind cs)
    (hn : Nested d m.stack) (hkind : kind = .whitespace ∨ kind = .comment)
    (hk : m.top.kind ≠ .root) (hlast : m.top.content.last? = some ' ') :
    PassedOver cs m (m.took d.toDelimiters kind cs) := by
  have htop : (m.took d.toDelimiters kind cs).top = m.top :=
    Region.accept_layout d.toDelimiters hk hlast hkind
  have hrest := Cursor.rest_eq_append_skip (admits_of_lexeme_token hl).1
  refine ⟨.single ((Move.token kind cs hl).goes hn), hrest, (Cursor.skip_append hrest).2, ?_⟩
  rw [stack, htop]
  rfl

/-- Behind a space of a region layout is passed over. -/
theorem exists_passedOver (h : Layout cs) (hn : Nested d m.stack) (hr : m.cursor.rest = cs ++ post)
    (hk : m.top.kind ≠ .root) (hlast : m.top.content.last? = some ' ') :
    ∃ m', PassedOver cs m m' := by
  induction h generalizing m with
  | nil => exact ⟨m, .refl, rfl, by simp [Cursor.breaks], rfl⟩
  | @blank c cs hc h ih =>
    have hl : lexeme m.cursor.rest = .token .whitespace [c] := by
      rw [hr]
      exact lexeme_blank hc _
    have hp : PassedOver [c] m _ := passedOver_took hl hn (.inl rfl) hk hlast
    obtain ⟨m', hm'⟩ := ih (hp.stack ▸ hn) (hp.rest_eq hr) (hp.top ▸ hk) (hp.top ▸ hlast)
    exact ⟨m', hp.trans hm'⟩
  | @comment value cs hv h ih =>
    rw [List.append_assoc] at hr
    have hl : lexeme m.cursor.rest = .token .comment value := by
      rw [hr]
      exact lexeme_block hv _
    have hp : PassedOver value m _ := passedOver_took hl hn (.inr rfl) hk hlast
    obtain ⟨m', hm'⟩ := ih (hp.stack ▸ hn) (hp.rest_eq hr) (hp.top ▸ hk) (hp.top ▸ hlast)
    exact ⟨m', hp.trans hm'⟩

/-- Behind a space of a region a run stands in front of a text as it does with layout before it, but
for the line. -/
theorem exists_variant_layout (h : Layout cs) (hn : Nested d m.stack) (hk : m.top.kind ≠ .root)
    (hlast : m.top.content.last? = some ' ') :
    ∃ m', Reaches (m.facing (cs ++ m.cursor.rest)) m' ∧
      Variant (Cursor.breaks cs) none [] [] m.outlines m'.outlines m m' := by
  obtain ⟨m', hp⟩ := exists_passedOver (m := m.facing (cs ++ m.cursor.rest)) h hn rfl hk hlast
  refine ⟨m', hp.reaches, hp.rest_eq rfl, hp.line, [], by simp, by simp, ?_⟩
  rw [hp.stack]
  exact .holder (.refl m.top) m.below

/-- A run comes behind a blank, and with layout put in there it stands as if there were none. -/
theorem Reaches.exists_variant_blank {pre r : List Char} {w : Char} {line : Int}
    (hm : Reaches (begun d (pre ++ w :: post) line) m) (hr : m.cursor.rest = w :: post)
    (hk : m.top.kind ≠ .root) (hw : Text.isBlank w = true) (hopen : w ∉ d.sheetOpen)
    (hclose : w ∉ d.sheetClose) (h : Layout r) :
    ∃ m', Reaches (begun d (pre ++ w :: (r ++ post)) line) m' ∧
      Variant (Cursor.breaks r) none [] [] (m.took d.toDelimiters .whitespace [w]).outlines
        m'.outlines (m.took d.toDelimiters .whitespace [w]) m' := by
  have hblend : d.Blends (w :: post) (w :: (r ++ post)) :=
    Delimiters.blends_cons id (fun hs hb => ⟨hs, hb⟩) hopen hclose _ _
  have hplain : ∀ c, lexeme (w :: post) = .plain c → d.sheetOpen ≠ [] ∧ d.sheetClose ≠ [] := by
    intro c hl
    rw [lexeme_blank hw] at hl
    cases hl
  have hrest : m.cursor.rest = [w] ++ post := hr
  have htake : Chooses d.toDelimiters m (.take .whitespace [w]) := by
    refine .token .whitespace [w] ?_
    rw [hr]
    exact lexeme_blank hw post
  have hfacing : (m.facing (w :: (r ++ post))).took d.toDelimiters .whitespace [w] =
      (m.took d.toDelimiters .whitespace [w]).facing (r ++ post) :=
    htake.apply_facing hrest (List.prefix_refl [w]) (r ++ post)
  have hpath : Reaches (begun d (pre ++ w :: (r ++ post)) line) _ :=
    (hm.facing_begun hblend hplain hr).took (begun_nested _ _ _) (lexeme_blank hw (r ++ post))
  rw [hfacing] at hpath
  have hinner : (m.took d.toDelimiters .whitespace [w]).top.kind ≠ .root := by
    rw [Machine.took, Region.accept_kind]
    exact hk
  have hn : Nested d (m.took d.toDelimiters .whitespace [w]).stack :=
    (hm.nested (begun_nested _ _ _)).accept _ _
  obtain ⟨m', hp, hv⟩ := exists_variant_layout h hn hinner
    (Region.last?_accept_blank d.toDelimiters hk _ _)
  have hpost : (m.took d.toDelimiters .whitespace [w]).cursor.rest = post :=
    (Cursor.skip_append hrest).1
  rw [hpost] at hp
  exact ⟨m', hpath.trans hp, hv⟩

/-- The regions that are open in front of a place begin before it or there. -/
theorem Reaches.openings_le {pre : List Char} {line : Int}
    (hm : Reaches (begun d (pre ++ post) line) m) (hr : m.cursor.rest = post) :
    (m.outlines.flatMap (Outline.source d.toDelimiters)).length = pre.length ∧
      ∀ p ∈ m.openings d.toDelimiters, p ≤ pre.length := by
  have hlen := hm.traced.2.length_outlines
  rw [hr, List.length_append] at hlen
  obtain ⟨newer, older, hfold, -, hnewer, holder⟩ :=
    Outline.foldl_locate d.toDelimiters m.outlines 0 []
  have hall : m.openings d.toDelimiters = newer := by
    rw [openings, hfold, List.suffix_nil.mp holder, List.append_nil]
  refine ⟨by omega, fun p hp => ?_⟩
  rw [hall] at hp
  have hle := (hnewer p hp).2
  omega

theorem took_openings (d : Delimiters) (m : Machine) (kind : Token.Kind) (value : List Char) :
    (m.took d kind value).openings d = m.openings d ∧
      ((m.took d kind value).outlines.flatMap (Outline.source d)).length =
        (m.outlines.flatMap (Outline.source d)).length + value.length := by
  constructor
  · rw [openings, took_outlines, List.foldl_append]
    rfl
  · rw [took_outlines]
    simp [Outline.source]

end Machine

/-- Layout behind a blank of a region is not seen in the output, and in a failure only by the
lines. -/
theorem Transpiler.run_layout (d : Dialect) (hd : d.Progressive)
    (hopen : ∀ c ∈ d.sheetOpen, Text.isBlank c = false)
    (hclose : ∀ c ∈ d.sheetClose, Text.isBlank c = false) (file : String) (line : Int)
    (pre r post : List Char) (w : Char) (hw : Text.isBlank w = true) (hr : Layout r) (m : Machine)
    (hm : Machine.Reaches (Machine.begun d (pre ++ w :: post) line) m)
    (hrest : m.cursor.rest = w :: post) (hk : m.top.kind ≠ .root) :
    (new d file line (String.ofList (pre ++ w :: (r ++ post)))).run.2 =
      (new d file line (String.ofList (pre ++ w :: post))).run.2.mapError
        (Diagnostic.moved (Cursor.breaks r)
          (if pre.length < (new d file line
              (String.ofList (pre ++ w :: post))).run.1.machine.openedAt d.toDelimiters
            then Cursor.breaks r else 0)) := by
  have hfree {mark : List Char} (hmark : ∀ c ∈ mark, Text.isBlank c = false) : w ∉ mark := by
    intro hmem
    rw [hmark w hmem] at hw
    cases hw
  obtain ⟨m', hpath', hv⟩ := hm.exists_variant_blank hrest hk hw (hfree hopen) (hfree hclose) hr
  have hpath : Machine.Reaches (Machine.begun d (pre ++ w :: post) line)
      (m.took d.toDelimiters .whitespace [w]) :=
    hm.took (Machine.begun_nested _ _ _) (by rw [hrest]; exact lexeme_blank hw post)
  obtain ⟨os, hos, -, hends⟩ := run_variant hd hpath hpath' hv file
  have hplace : pre.length < (new d file line
      (String.ofList (pre ++ w :: post))).run.1.machine.openedAt d.toDelimiters ↔
      Outline.openSince os ≠ 0 := by
    obtain ⟨hread, hbefore⟩ := hm.openings_le hrest
    obtain ⟨hsame, hmore⟩ := Machine.took_openings d.toDelimiters m .whitespace [w]
    refine Machine.lt_openedAt_iff hos ?_ ?_
    · rw [hmore, hread]
      exact Nat.lt_succ_self _
    · rw [hsame]
      exact hbefore
  rcases hends with ⟨front, back, -, ho, ho'⟩ | ⟨diagnostic, ho, ho'⟩
  · rw [ho, ho']
    rfl
  · rw [ho, ho']
    by_cases hsince : Outline.openSince os = 0
    · rw [if_neg (fun h => hplace.mp h hsince), if_pos ⟨hsince, rfl⟩]
      rfl
    · rw [if_pos (hplace.mpr hsince), if_neg (fun h => hsince h.1)]
      rfl

/-- A comment that holds a delimiter and a line break stands behind the blank, and the host
expression that opens behind it is not closed. -/
theorem Transpiler.run_layout_unclosed :
    Layout "/*>>\n*/\t".toList ∧
    ∃ m, Machine.Reaches (Machine.begun .standard ("<<a".toList ++ ' ' :: "[b".toList) 1) m ∧
      m.cursor.rest = ' ' :: "[b".toList ∧ m.top.kind ≠ .root ∧
      (new .standard "page" 1 (String.ofList
          ("<<a".toList ++ ' ' :: ("/*>>\n*/\t".toList ++ "[b".toList)))).run.2 =
        .error (.located (.unterminatedRegion "host expression" "]" 2) (some 2) (some "page")) := by
  have hcomment : Comment.Block "/*>>\n*/".toList := ⟨">>\n".toList, by decide, rfl⟩
  have hlayout : Layout "/*>>\n*/\t".toList := .comment hcomment (.blank (by decide) .nil)
  have hreach := Machine.reaches_runFor (n := 2)
    (Machine.begun_nested .standard ("<<a".toList ++ ' ' :: "[b".toList) 1) (by decide +kernel)
  have hrest : ((Machine.begun .standard ("<<a".toList ++ ' ' :: "[b".toList) 1).runFor
      2).machine.cursor.rest = ' ' :: "[b".toList := by decide +kernel
  have hkind : ((Machine.begun .standard ("<<a".toList ++ ' ' :: "[b".toList) 1).runFor
      2).machine.top.kind ≠ .root := by decide +kernel
  have hplain : (new .standard "page" 1
      (String.ofList ("<<a".toList ++ ' ' :: "[b".toList))).run.2 =
      .error (.located (.unterminatedRegion "host expression" "]" 1) (some 1) (some "page")) := by
    decide +kernel
  have hplace : "<<a".toList.length < (new .standard "page" 1
      (String.ofList ("<<a".toList ++ ' ' :: "[b".toList))).run.1.machine.openedAt
        Dialect.standard.toDelimiters := by decide +kernel
  have hopen : ∀ c ∈ Dialect.standard.sheetOpen, Text.isBlank c = false := by
    intro c hc
    obtain rfl : c = '<' := by simpa [Dialect.standard] using hc
    decide
  have hclose : ∀ c ∈ Dialect.standard.sheetClose, Text.isBlank c = false := by
    intro c hc
    obtain rfl : c = '>' := by simpa [Dialect.standard] using hc
    decide
  have hlaid := run_layout .standard (by decide) hopen hclose "page" 1 _ _ _ ' ' (by decide)
    hlayout _ hreach hrest hkind
  rw [hplain, if_pos hplace] at hlaid
  exact ⟨hlayout, _, hreach, hrest, hkind, hlaid⟩

end InlineSheet
