import InlineSheet.Proofs.Lockstep

/-!
# The text behind a place

A round may look beyond what it takes: for the second character of a comment, for the end of a line
and for the rest of a delimiter. `Blends` says when no such look can tell two texts apart. Main
statement: a run that comes to the place in front of the one text comes there in the same state when
the other text stands behind. A text in front of which a region could open or close without input is
left out, since a run may pass such a place more than once.
-/
namespace InlineSheet

/-- Behind what has been read, no look ahead tells `new` from `old`. -/
structure Delimiters.Blends (d : Delimiters) (old new : List Char) : Prop where
  /-- The new text ends a line comment if the old one does. -/
  line : (∀ c ∈ old.head?, c = '\n') → ∀ c ∈ new.head?, c = '\n'
  /-- The new text makes no comment of a slash unless the old one does. -/
  slash : old.head? ≠ some '/' → old.head? ≠ some '*' → new.head? ≠ some '/' ∧ new.head? ≠ some '*'
  /-- The new text is not there if the old one is not. -/
  ended : old = [] → new = []
  /-- No delimiter reaches into the new text that would not fit the old one. -/
  delimiter : ∀ mark, mark = d.sheetOpen ∨ mark = d.sheetClose → ∀ front, front ≠ [] →
    mark <+: front ++ new → mark <+: front ++ old

theorem Delimiters.isPrefix_of_not_mem {mark front tail : List Char} {z : Char}
    (h : mark <+: front ++ z :: tail) (hz : z ∉ mark) : mark <+: front := by
  induction front generalizing mark with
  | nil =>
    cases mark with
    | nil => exact List.prefix_refl []
    | cons c mark =>
      obtain ⟨rfl, -⟩ := List.cons_prefix_cons.mp h
      exact absurd List.mem_cons_self hz
  | cons c front ih =>
    cases mark with
    | nil => exact List.nil_prefix
    | cons e mark =>
      obtain ⟨rfl, htail⟩ := List.cons_prefix_cons.mp h
      exact List.cons_prefix_cons.mpr ⟨rfl, ih htail fun hmem => hz (List.mem_cons_of_mem _ hmem)⟩

/-- Only the first character of a text is looked at, if no delimiter has it. -/
theorem Delimiters.blends_cons {d : Delimiters} {a b : Char} (hline : a = '\n' → b = '\n')
    (hslash : a ≠ '/' → a ≠ '*' → b ≠ '/' ∧ b ≠ '*') (hopen : b ∉ d.sheetOpen)
    (hclose : b ∉ d.sheetClose) (old new : List Char) : d.Blends (a :: old) (b :: new) where
  line := by simpa using hline
  slash := by simpa using hslash
  ended := nofun
  delimiter := by
    intro mark hmark front _ hp
    have hb : b ∉ mark := by
      rcases hmark with rfl | rfl
      · exact hopen
      · exact hclose
    exact (isPrefix_of_not_mem hp hb).trans (List.prefix_append front _)

namespace Comment

theorem scanLine_cons (c : Char) (cs : List Char) :
    scanLine (c :: cs) = if c = '\n' then [] else c :: scanLine cs := by
  by_cases hc : c = '\n' <;> simp [scanLine, hc]

theorem scanLine_eq_nil_iff (cs : List Char) : scanLine cs = [] ↔ ∀ c ∈ cs.head?, c = '\n' := by
  cases cs with
  | nil => simp [scanLine]
  | cons c cs => by_cases hc : c = '\n' <;> simp [scanLine_cons, hc]

theorem scanLine_append {front old new : List Char} (h : scanLine (front ++ old) <+: front)
    (hline : (∀ c ∈ old.head?, c = '\n') → ∀ c ∈ new.head?, c = '\n') :
    scanLine (front ++ new) = scanLine (front ++ old) := by
  induction front with
  | nil =>
    have hold := List.prefix_nil.mp h
    have hnew := (scanLine_eq_nil_iff new).mpr (hline ((scanLine_eq_nil_iff old).mp hold))
    exact hnew.trans hold.symm
  | cons c front ih =>
    rw [List.cons_append, scanLine_cons] at h ⊢
    rw [List.cons_append, scanLine_cons]
    split
    · rfl
    · rename_i hc
      rw [if_neg hc, List.cons_prefix_cons] at h
      rw [ih h.2]

/-- A block comment that is closed before the old text does not depend on it. -/
theorem scanToClose_append_of_isPrefix {front old : List Char} (hold : old ≠ [])
    (h : scanToClose (front ++ old) <+: front) (new : List Char) :
    scanToClose (front ++ new) = scanToClose (front ++ old) := by
  have hsome : scanToClose old ≠ [] := by
    obtain ⟨c, tail, rfl⟩ := List.exists_cons_of_ne_nil hold
    rw [scanToClose_cons]
    split <;> exact List.cons_ne_nil _ _
  induction front with
  | nil => exact absurd (List.prefix_nil.mp h) hsome
  | cons c front ih =>
    rw [List.cons_append, scanToClose_cons] at h ⊢
    rw [List.cons_append, scanToClose_cons]
    cases front with
    | nil =>
      split at h
      · have hlen := h.length_le
        simp at hlen
      · exact absurd (List.prefix_nil.mp (List.cons_prefix_cons.mp h).2) hsome
    | cons e front =>
      have hhead (tail : List Char) :
          (c = '*' ∧ (e :: front ++ tail).head? = some '/') ↔ (c = '*' ∧ e = '/') := by simp
      by_cases hc : c = '*' ∧ e = '/'
      · rw [if_pos ((hhead new).mpr hc), if_pos ((hhead old).mpr hc)]
      · rw [if_neg (mt (hhead old).mp hc), List.cons_prefix_cons] at h
        rw [if_neg (mt (hhead new).mp hc), if_neg (mt (hhead old).mp hc), ih h.2]

theorem scan_text {rest : List Char} (hs : rest.head? ≠ some '/') (hb : rest.head? ≠ some '*') :
    scan ('/' :: rest) = (.text, ['/']) := by
  unfold scan
  split <;> simp_all

end Comment

namespace Delimiters.Blends

variable {d : Delimiters} {front old new : List Char}

theorem comment_scan (h : d.Blends old new)
    (hv : (Comment.scan ('/' :: (front ++ old))).2 <+: '/' :: front) :
    Comment.scan ('/' :: (front ++ new)) = Comment.scan ('/' :: (front ++ old)) := by
  by_cases hold : old = []
  · rw [hold, h.ended hold]
  · cases front with
    | nil =>
      have hlen := hv.length_le
      have hs : old.head? ≠ some '/' := by
        intro hs
        obtain ⟨tail, rfl⟩ := List.head?_eq_some_iff.mp hs
        simp [Comment.scan, Comment.scanLine_cons] at hlen
      have hb : old.head? ≠ some '*' := by
        intro hb
        obtain ⟨tail, rfl⟩ := List.head?_eq_some_iff.mp hb
        simp [Comment.scan, Comment.scanBlock] at hlen
      obtain ⟨hs', hb'⟩ := h.slash hs hb
      exact (Comment.scan_text hs' hb').trans (Comment.scan_text hs hb).symm
    | cons c front =>
      by_cases hs : c = '/'
      · subst hs
        have hline : Comment.scanLine ('/' :: '/' :: front ++ new) =
            Comment.scanLine ('/' :: '/' :: front ++ old) := Comment.scanLine_append hv h.line
        exact congrArg (Prod.mk Token.Kind.comment) hline
      · by_cases hb : c = '*'
        · subst hb
          have hbody := (List.cons_prefix_cons.mp (List.cons_prefix_cons.mp hv).2).2
          have hclose := Comment.scanToClose_append_of_isPrefix hold hbody new
          exact congrArg (fun body => (Token.Kind.comment, '/' :: '*' :: body)) hclose
        · have htext (tail : List Char) :
              Comment.scan ('/' :: (c :: front ++ tail)) = (.text, ['/']) :=
            Comment.scan_text (by simpa using hs) (by simpa using hb)
          exact (htext new).trans (htext old).symm

theorem lexeme_token (h : d.Blends old new) {kind : Token.Kind} {value : List Char}
    (hl : lexeme (front ++ old) = .token kind value) (hv : value <+: front) :
    lexeme (front ++ new) = .token kind value := by
  have hne := (admits_of_lexeme_token hl).2.ne_nil
  cases front with
  | nil => exact absurd (List.prefix_nil.mp hv) hne
  | cons c front =>
    rw [List.cons_append] at hl ⊢
    rcases lexeme_cons c (front ++ old) with
      ⟨hq, hs, e⟩ | ⟨-, -, e⟩ | ⟨rfl, e⟩ | ⟨hb, e⟩ | ⟨-, e⟩ <;> rw [e] at hl <;> cases hl
    · have hcomplete := Literal.complete_of_scan hq (Prod.ext hs rfl)
      obtain ⟨tail, ht⟩ := hv
      rw [← List.cons_append, ← ht, List.append_assoc]
      exact lexeme_literal hcomplete _
    · rw [lexeme_slash, h.comment_scan hv]
    · exact lexeme_blank hb _

theorem lexeme_plain (hf : front ≠ []) {c : Char} (hl : lexeme (front ++ old) = .plain c) (new) :
    lexeme (front ++ new) = .plain c := by
  obtain ⟨c', front, rfl⟩ := List.exists_cons_of_ne_nil hf
  obtain ⟨rest, hr, hq, hs, hb⟩ := cons_of_lexeme_plain hl
  obtain ⟨rfl, -⟩ := List.cons.inj hr
  exact InlineSheet.lexeme_plain hq hs hb _

theorem isPrefix_old (h : d.Blends old new) {mark : List Char}
    (hm : mark = d.sheetOpen ∨ mark = d.sheetClose ∨ mark.length ≤ 1) (hf : front ≠ [])
    (hp : mark <+: front ++ new) : mark <+: front ++ old := by
  rcases hm with hm | hm | hm
  · exact h.delimiter mark (.inl hm) front hf hp
  · exact h.delimiter mark (.inr hm) front hf hp
  · have hshort : mark.length ≤ front.length := by
      have hpos := List.length_pos_iff.mpr hf
      omega
    have hfront := List.prefix_of_prefix_length_le hp (List.prefix_append front new) hshort
    exact hfront.trans (List.prefix_append front old)

end Delimiters.Blends

theorem Region.Kind.opener_cases (d : Delimiters) (k : Kind) :
    k.opener d = d.sheetOpen ∨ k.opener d = d.sheetClose ∨ (k.opener d).length ≤ 1 := by
  cases k <;> simp [opener]

theorem Region.Kind.closer_cases (d : Delimiters) (k : Kind) :
    k.closer d = d.sheetOpen ∨ k.closer d = d.sheetClose ∨ (k.closer d).length ≤ 1 := by
  cases k <;> simp [closer]

/-- The same place, with another text ahead. -/
def Cursor.facing (c : Cursor) (rest : List Char) : Cursor := { c with rest }

theorem Cursor.facing_skip {c : Cursor} {front old : List Char} (hr : c.rest = front ++ old)
    {n : Nat} (hn : n ≤ front.length) (new : List Char) :
    (c.facing (front ++ new)).skip n = (c.skip n).facing (front.drop n ++ new) := by
  have hmin (tail : List Char) : min n (front ++ tail).length = n := by
    rw [List.length_append]
    omega
  simp only [facing, skip, hr, hmin, List.drop_append_of_le_length hn,
    List.take_append_of_le_length hn]

theorem Cursor.skip_append {c : Cursor} {value tail : List Char} (hr : c.rest = value ++ tail) :
    (c.skip value.length).rest = tail ∧
      (c.skip value.length).line = c.line + Cursor.breaks value := by
  simp only [skip, hr, List.drop_left, List.take_left, and_self]

namespace Machine

/-- The same machine, with another text ahead. -/
def facing (m : Machine) (rest : List Char) : Machine := { m with cursor := m.cursor.facing rest }

variable {d : Dialect} {m m' : Machine} {a : Action} {front old new : List Char}

theorem Chooses.apply_facing (h : Chooses d.toDelimiters m a) (hr : m.cursor.rest = front ++ old)
    (hs : a.source d.toDelimiters m <+: front) (new : List Char) :
    (m.facing (front ++ new)).apply d a =
      (m.apply d a).facing (front.drop (a.source d.toDelimiters m).length ++ new) := by
  have hskip := Cursor.facing_skip hr hs.length_le new
  cases h with
  | token kind value hl =>
    exact congrArg (fun c => { m.took d.toDelimiters kind value with cursor := c }) hskip
  | text c hl ho he =>
    exact congrArg (fun c' => { m.took d.toDelimiters .text [c] with cursor := c' }) hskip
  | enter c hl ho =>
    exact congrArg (fun c : Cursor =>
      let inner : Region :=
        { kind := m.top.kind.child, startLine := c.line, dialect := m.top.dialect }
      { m with
        cursor := c
        top := inner
        below := m.top :: m.below
        trace := m.trace.push (.opened inner (m.depth + 1)) }) hskip
  | leave c hl ho he hb =>
    obtain ⟨parent, below, hbelow⟩ := exists_below_of_depth hb
    rw [apply_leave hbelow, apply_leave (m := m.facing (front ++ new)) hbelow]
    exact congrArg (fun c : Cursor => { m.left d parent below with
      cursor := c, trace := m.trace.push (.closed m.top c.line) }) hskip

/-- The choice stays the same where the token next in the input and the delimiters that match do. -/
theorem Chooses.facing_of_lexeme (h : Chooses d.toDelimiters m a)
    (hr : m.cursor.rest = front ++ old) (hf : front ≠ []) (hs : a.source d.toDelimiters m <+: front)
    (htoken : ∀ kind value, a = .take kind value → lexeme (front ++ old) = .token kind value →
      lexeme (front ++ new) = .token kind value)
    (hmark : ∀ mark, mark = d.sheetOpen ∨ mark = d.sheetClose ∨ mark.length ≤ 1 →
      mark <+: front ++ new → mark <+: front ++ old) :
    Chooses d.toDelimiters (m.facing (front ++ new)) a := by
  have hmatch {mark : List Char} (hm : mark <+: front) :
      (m.facing (front ++ new)).cursor.startsWith mark = true :=
    List.isPrefixOf_iff_prefix.mpr (hm.trans (List.prefix_append front new))
  have hback {mark : List Char}
      (hm : mark = d.sheetOpen ∨ mark = d.sheetClose ∨ mark.length ≤ 1)
      (hnew : (m.facing (front ++ new)).cursor.startsWith mark = true) :
      m.cursor.startsWith mark = true := by
    have hold := hmark mark hm (List.isPrefixOf_iff_prefix.mp hnew)
    rw [← hr] at hold
    exact List.isPrefixOf_iff_prefix.mpr hold
  have hmiss (ho : m.cursor.startsWith (m.top.childOpener d.toDelimiters) = false) :
      (m.facing (front ++ new)).cursor.startsWith (m.top.childOpener d.toDelimiters) = false := by
    rw [← Bool.not_eq_true] at ho ⊢
    exact fun hnew => ho (hback (m.top.kind.child.opener_cases _) hnew)
  have hplain {c : Char} (hl : lexeme m.cursor.rest = .plain c) :
      lexeme (m.facing (front ++ new)).cursor.rest = .plain c := by
    rw [hr] at hl
    exact Delimiters.Blends.lexeme_plain hf hl new
  cases h with
  | token kind value hl =>
    rw [hr] at hl
    exact .token kind value (htoken kind value rfl hl)
  | enter c hl ho => exact .enter c (hplain hl) (hmatch hs)
  | leave c hl ho he hb => exact .leave c (hplain hl) (hmiss ho) ⟨he.1, hmatch hs, he.2.2⟩ hb
  | text c hl ho he =>
    refine .text c (hplain hl) (hmiss ho) fun hnew => he ⟨hnew.1, ?_, hnew.2.2⟩
    exact hback (m.top.kind.closer_cases _) hnew.2.1

theorem Chooses.facing (h : Chooses d.toDelimiters m a) (hblend : d.Blends old new)
    (hr : m.cursor.rest = front ++ old) (hf : front ≠ [])
    (hs : a.source d.toDelimiters m <+: front) :
    Chooses d.toDelimiters (m.facing (front ++ new)) a := by
  refine h.facing_of_lexeme hr hf hs ?_ fun mark hm hp => hblend.isPrefix_old hm hf hp
  rintro kind value rfl hl
  exact hblend.lexeme_token hl hs

/-- A round that takes no input stands in front of a plain character, and some stylesheet delimiter
is empty. -/
theorem Chooses.plain_of_source_eq_nil (h : Chooses d.toDelimiters m a)
    (hs : a.source d.toDelimiters m = []) :
    ∃ c, lexeme m.cursor.rest = .plain c ∧ (d.sheetOpen = [] ∨ d.sheetClose = []) := by
  cases h with
  | token kind value hl => exact absurd hs (admits_of_lexeme_token hl).2.ne_nil
  | enter c hl ho =>
    refine ⟨c, hl, .inl ?_⟩
    obtain ⟨hchild, -⟩ := Region.Kind.child_of_opener_eq_nil (k := m.top.kind) hs
    change m.top.kind.child.opener d.toDelimiters = [] at hs
    rw [hchild] at hs
    exact hs
  | leave c hl ho he hb =>
    refine ⟨c, hl, .inr ?_⟩
    change m.top.kind.closer d.toDelimiters = [] at hs
    cases hk : m.top.kind with
    | root => exact absurd hk he.1
    | sheet =>
      rw [hk] at hs
      exact hs
    | expr =>
      rw [hk] at hs
      cases hs
  | text c hl ho he => cases hs

theorem Reaches.isSuffix (h : Reaches m m') (hn : Nested d m.stack) :
    m'.cursor.rest <:+ m.cursor.rest := by
  refine (h.induct hn (P := fun b => b.cursor.rest <:+ m.cursor.rest) (List.suffix_refl _) ?_).2
  intro b b' _ hmove hb
  obtain ⟨e, -, -, -, hrest⟩ := hmove.event
  exact List.IsSuffix.trans ⟨_, hrest.symm⟩ hb

/-- Rounds that choose alike in front of either text come to the same place. -/
theorem Reaches.facing_of_chooses (h : Reaches m m') (hn : Nested d m.stack)
    (hr : m.cursor.rest = front ++ old) (hr' : m'.cursor.rest = old)
    (hstep : ∀ (b : Machine) (a : Action) (front : List Char), Nested d b.stack →
      Chooses d.toDelimiters b a → Reaches (b.apply d a) m' → b.cursor.rest = front ++ old →
      a.source d.toDelimiters b <+: front → Chooses d.toDelimiters (b.facing (front ++ new)) a) :
    Reaches (m.facing (front ++ new)) (m'.facing new) := by
  induction h using Relation.ReflTransGen.head_induction_on generalizing front with
  | refl =>
    have hnil : front = [] := by
      rw [hr'] at hr
      exact List.self_eq_append_left.mp hr
    rw [hnil]
    exact .refl
  | head hg hrest ih =>
    rename_i first second
    have hmove := hg.move hn
    obtain ⟨a, hc, rfl⟩ := hmove.exists_chooses
    obtain ⟨hcursor, hsource⟩ := hc.cursor_apply
    -- The old text is still ahead behind this round, so the round has taken a part of the front.
    obtain ⟨front', hfront'⟩ := Reaches.isSuffix hrest (hmove.nested hn)
    rw [hr'] at hfront'
    have hsplit : first.cursor.rest =
        a.source d.toDelimiters first ++ ((first.apply d a).cursor.rest) := by
      rw [hcursor]
      exact Cursor.rest_eq_append_skip hsource
    rw [hr, ← hfront', ← List.append_assoc] at hsplit
    have hfront := List.append_cancel_right hsplit
    have hprefix : a.source d.toDelimiters first <+: front := ⟨front', hfront.symm⟩
    have hgoes := ((hstep first a front hn hc hrest hr hprefix).move hn).goes hn
    rw [hc.apply_facing hr hprefix] at hgoes
    have hdrop : front.drop (a.source d.toDelimiters first).length = front' := by
      rw [hfront, List.drop_left]
    rw [hdrop] at hgoes
    exact .head hgoes (ih (hmove.nested hn) hfront'.symm)

/-- The place in front of the old text is come to in the same way when the new text stands there. -/
theorem Reaches.facing (h : Reaches m m') (hn : Nested d m.stack) (hblend : d.Blends old new)
    (hstill : ∀ c, lexeme old = .plain c → d.sheetOpen ≠ [] ∧ d.sheetClose ≠ [])
    (hr : m.cursor.rest = front ++ old) (hr' : m'.cursor.rest = old) :
    Reaches (m.facing (front ++ new)) (m'.facing new) := by
  refine h.facing_of_chooses hn hr hr' fun b a front _ hc _ hrest hs => ?_
  refine hc.facing hblend hrest ?_ hs
  rintro rfl
  obtain ⟨c, hl, hempty⟩ := hc.plain_of_source_eq_nil (List.prefix_nil.mp hs)
  rw [hrest] at hl
  have hboth := hstill c hl
  exact hempty.elim hboth.1 hboth.2

theorem Reaches.facing_begun {pre : List Char} {line : Int}
    (h : Reaches (begun d (pre ++ old) line) m) (hblend : d.Blends old new)
    (hstill : ∀ c, lexeme old = .plain c → d.sheetOpen ≠ [] ∧ d.sheetClose ≠ [])
    (hr : m.cursor.rest = old) : Reaches (begun d (pre ++ new) line) (m.facing new) :=
  h.facing (begun_nested _ _ _) hblend hstill rfl hr

/-- The line at a place counts the line breaks in front of it. -/
theorem Reaches.line_eq {pre rest : List Char} {line : Int}
    (h : Reaches (begun d (pre ++ rest) line) m) (hr : m.cursor.rest = rest) :
    m.cursor.line = line + Cursor.breaks pre := by
  have hcursor : ∃ n, m.cursor = (begun d (pre ++ rest) line).cursor.skip n := by
    refine (h.induct (begun_nested _ _ _)
      (P := fun b => ∃ n, b.cursor = (begun d (pre ++ rest) line).cursor.skip n)
      ⟨0, (Cursor.skip_zero _).symm⟩ ?_).2
    rintro b b' - hmove ⟨n, hb⟩
    obtain ⟨a, hc, rfl⟩ := hmove.exists_chooses
    exact ⟨_, by rw [hc.cursor_apply.1, hb, Cursor.skip_skip]⟩
  obtain ⟨n, hn⟩ := hcursor
  have hdrop : (pre ++ rest).drop n = rest := by
    rw [hn] at hr
    exact hr
  have htake : (pre ++ rest).take n = pre := by
    have hsplit := List.take_append_drop n (pre ++ rest)
    rw [hdrop] at hsplit
    exact List.append_cancel_right hsplit
  rw [hn]
  change line + Cursor.breaks ((pre ++ rest).take n) = _
  rw [htake]

end Machine
end InlineSheet
