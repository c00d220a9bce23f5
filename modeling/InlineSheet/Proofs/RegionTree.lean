import InlineSheet.Proofs.Descent
import InlineSheet.Proofs.Trimming
import Mathlib.Data.List.Basic

/-!
# Region trees

A region tree is the structure of a balanced source: leaves and inner regions, to any depth. `source`
writes it with delimiters around each inner region, and `emit` says what it is worth without reading
anything. Main statement: where the delimiters cannot be mistaken for one another or for a leaf, the
source of every tree is accepted and is worth just that.
-/
namespace InlineSheet

namespace Delimiters

def all (d : Delimiters) : List (List Char) := [d.sheetOpen, d.sheetClose, [d.exprOpen], [d.exprClose]]

/-- The delimiters are not empty, hold plain characters only, and no two share one. -/
structure Separate (d : Delimiters) : Prop where
  ne_nil : ∀ delimiter ∈ d.all, delimiter ≠ []
  plain : ∀ delimiter ∈ d.all, ∀ c ∈ delimiter, Plain c
  disjoint : d.all.Pairwise List.Disjoint

/-- A plain character that occurs in no delimiter. -/
def Safe (d : Delimiters) (c : Char) : Prop := Plain c ∧ ∀ delimiter ∈ d.all, c ∉ delimiter

instance (d : Delimiters) (c : Char) : Decidable (d.Safe c) := inferInstanceAs (Decidable (_ ∧ _))

theorem Separate.progressive {d : Delimiters} (hs : d.Separate) : d.Progressive :=
  .inl (hs.ne_nil d.sheetOpen (by simp [all]))

end Delimiters

/-- What a region tree has at its ends, each with the reason why it is read as one piece. -/
inductive Leaf (d : Delimiters) where
  | literal (value : List Char) (h : Literal.Complete value)
  | comment (value : List Char) (h : Comment.Block value)
  | blank (c : Char) (h : Text.isBlank c = true)
  | safe (c : Char) (h : d.Safe c)

/-- The items of a region of the given kind, from a place on at which `n` of the brackets among them
are open. At the end none is, so that those of a whole region form a balanced word. Only a host
expression has brackets of its own. -/
inductive RegionTree (d : Delimiters) : Region.Kind → Nat → Type
  | nil {k : Region.Kind} : RegionTree d k 0
  | leaf {k : Region.Kind} {n : Nat} (l : Leaf d) (rest : RegionTree d k n) : RegionTree d k n
  | bracketOpen {n : Nat} (rest : RegionTree d .expr (n + 1)) : RegionTree d .expr n
  | bracketClose {n : Nat} (rest : RegionTree d .expr n) : RegionTree d .expr (n + 1)
  | inner {k : Region.Kind} {n : Nat} (child : RegionTree d k.child 0) (rest : RegionTree d k n) :
      RegionTree d k n

namespace Leaf

variable {d : Delimiters}

def kind : Leaf d → Token.Kind
  | .literal _ _ => .string
  | .comment _ _ => .comment
  | .blank _ _ => .whitespace
  | .safe _ _ => .text

def source : Leaf d → List Char
  | .literal value _ => value
  | .comment value _ => value
  | .blank c _ => [c]
  | .safe c _ => [c]

/-- What a leaf is worth in a region of kind `k`; `spaced` says that a space stands right before it.
The root keeps it. Elsewhere comments go and blanks are one space, and a stylesheet quotes anew what is
in single quotes. -/
def emit (k : Region.Kind) (spaced : Bool) : Leaf d → List Char
  | .literal value _ =>
    if k = .sheet ∧ value.head? = some '\'' then Literal.requote value else value
  | .comment value _ => if k = .root then value else []
  | .blank c _ => if k = .root then [c] else if spaced then [] else [' ']
  | .safe c _ => [c]

def spaces (spaced : Bool) : Leaf d → Bool
  | .literal _ _ => false
  | .comment _ _ => spaced
  | .blank _ _ => true
  | .safe _ _ => false

end Leaf

namespace RegionTree

variable {d : Delimiters}

def source {k : Region.Kind} {n : Nat} : RegionTree d k n → List Char
  | .nil => []
  | .leaf l rest => l.source ++ rest.source
  | .bracketOpen rest => d.exprOpen :: rest.source
  | .bracketClose rest => d.exprClose :: rest.source
  | .inner child rest => k.child.opener d ++ child.source ++ k.child.closer d ++ rest.source

/-- What an inner region with this text is worth in a region of kind `k`. Host code calls a function on
the stylesheet as a literal; a stylesheet is interrupted for a call on the host expression. -/
def splice (names : Runtime) (text : List Char) : Region.Kind → List Char
  | .sheet => "' + ".toList ++ names.expressionCall ++ ['('] ++ text ++ ") + '".toList
  | .root | .expr => names.evaluateCall ++ ['(', '\''] ++ Text.trim text ++ ['\'', ')']

/-- What the items are worth, if `spaced` says whether a space stands right before them. -/
def emit (names : Runtime) {k : Region.Kind} {n : Nat} : RegionTree d k n → Bool → List Char
  | .nil, _ => []
  | .leaf l rest, spaced => l.emit k spaced ++ rest.emit names (l.spaces spaced)
  | .bracketOpen rest, _ => d.exprOpen :: rest.emit names false
  | .bracketClose rest, _ => d.exprClose :: rest.emit names false
  | .inner child rest, _ => splice names (child.emit names false) k ++ rest.emit names false

end RegionTree

theorem Cursor.startsWith_append {c : Cursor} {delimiter rest : List Char}
    (h : c.rest = delimiter ++ rest) : c.startsWith delimiter = true := by
  rw [startsWith, h, List.isPrefixOf_iff_prefix]
  exact List.prefix_append _ _

theorem Cursor.startsWith_eq_false {c : Cursor} {delimiter rest : List Char} {ch : Char}
    (h : c.rest = ch :: rest) (hne : delimiter ≠ []) (hmem : ch ∉ delimiter) :
    c.startsWith delimiter = false := by
  cases delimiter with
  | nil => exact absurd rfl hne
  | cons e delimiter =>
    rw [Bool.eq_false_iff]
    intro hp
    rw [startsWith, h, List.isPrefixOf_iff_prefix] at hp
    exact hmem ((List.cons_prefix_cons.mp hp).1 ▸ List.mem_cons_self)

namespace Delimiters.Separate

variable {d : Delimiters}

theorem opener_mem_all (d : Delimiters) (k : Region.Kind) : k.child.opener d ∈ d.all := by
  cases k <;> simp [Region.Kind.child, Region.Kind.opener, all]

theorem closer_mem_all (d : Delimiters) {k : Region.Kind} (hk : k ≠ .root) :
    k.closer d ∈ d.all := by
  cases k with
  | root => exact absurd rfl hk
  | sheet => simp [Region.Kind.closer, all]
  | expr => simp [Region.Kind.closer, all]

/-- What opens a region never has a character of what closes one. -/
theorem opener_disjoint_closer (hs : d.Separate) (k : Region.Kind) {k' : Region.Kind}
    (hk : k' ≠ .root) : List.Disjoint (k.child.opener d) (k'.closer d) := by
  have h := hs.disjoint
  simp only [all, List.pairwise_cons, List.mem_cons, forall_eq_or_imp] at h
  cases k <;> cases k' <;> simp_all [Region.Kind.child, Region.Kind.opener, Region.Kind.closer]

theorem exists_lexeme (hs : d.Separate) {delimiter rest cs : List Char} (hm : delimiter ∈ d.all)
    (h : cs = delimiter ++ rest) :
    ∃ ch ∈ delimiter, ∃ tail, cs = ch :: tail ∧ lexeme cs = .plain ch := by
  obtain ⟨ch, more, rfl⟩ := List.exists_cons_of_ne_nil (hs.ne_nil _ hm)
  have hp := hs.plain _ hm ch List.mem_cons_self
  subst h
  exact ⟨ch, List.mem_cons_self, more ++ rest, rfl, lexeme_plain hp.1 hp.2.1 hp.2.2 _⟩

end Delimiters.Separate

namespace Region

/-- Whether the text so far ends in a space. In the root that makes no difference. -/
def SpacedAs (r : Region) (spaced : Bool) : Prop :=
  r.kind ≠ .root → (r.content.last? = some ' ' ↔ spaced = true)

theorem write_last? (r : Region) {cs : List Char} {ch : Char} (h : cs.getLast? = some ch) :
    (r.write cs).content.last? = some ch := by
  rw [Buffer.last?_eq_getLast?, write_toList, List.getLast?_append, h]
  rfl

theorem spacedAs_write (r : Region) {cs : List Char} {ch : Char} (h : cs.getLast? = some ch)
    (hch : ch ≠ ' ') : (r.write cs).SpacedAs false := by
  intro _
  rw [write_last? r h]
  simp [hch]

theorem added_leaf {d : Delimiters} (l : Leaf d) (r : Region) (line : Int) {spaced : Bool}
    (hsp : r.SpacedAs spaced) : r.added ⟨l.kind, l.source, line⟩ = l.emit r.kind spaced := by
  cases hk : r.kind with
  | root => cases l <;> simp [added, hk, Leaf.kind, Leaf.source, Leaf.emit]
  | sheet =>
    have hlast := hsp (by rw [hk]; decide)
    cases l with
    | literal value h =>
      by_cases hq : value.head? = some '\'' <;>
        simp [added, hk, Leaf.kind, Leaf.source, Leaf.emit, sheetLiteral, hq]
    | comment | blank | safe => simp [added, hk, Leaf.kind, Leaf.source, Leaf.emit, hlast]
  | expr =>
    have hlast := hsp (by rw [hk]; decide)
    cases l <;> simp [added, hk, Leaf.kind, Leaf.source, Leaf.emit, hlast]

/-- No leaf is a bracket. -/
theorem accept_leaf_openBrackets {d : Delimiters} (l : Leaf d) (r : Region) (line : Int) :
    (r.accept d ⟨l.kind, l.source, line⟩).openBrackets = r.openBrackets := by
  have hspace : r.writeSpace.openBrackets = r.openBrackets := by
    unfold writeSpace
    split <;> rfl
  cases l with
  | literal value h => cases hk : r.kind <;> simp [accept, hk, Leaf.kind]
  | comment value h => cases hk : r.kind <;> simp [accept, hk, Leaf.kind]
  | blank c h => cases hk : r.kind <;> simp [accept, hk, Leaf.kind, hspace]
  | safe c h =>
    have ho : c ≠ d.exprOpen := fun he => h.2 [d.exprOpen] (by simp [Delimiters.all]) (by simp [he])
    have hc : c ≠ d.exprClose := fun he =>
      h.2 [d.exprClose] (by simp [Delimiters.all]) (by simp [he])
    cases hk : r.kind <;> simp [accept, hk, Leaf.kind, Leaf.source, bracketsAfter, ho, hc]

theorem getLast?_emit_literal {d : Delimiters} (k : Kind) (spaced : Bool) {value : List Char}
    (h : Literal.Complete value) :
    ∃ ch, ((Leaf.literal (d := d) value h).emit k spaced).getLast? = some ch ∧ ch ≠ ' ' := by
  simp only [Leaf.emit]
  split
  · exact (Literal.solid_requote value).getLast?_ne_space
  · exact h.solid.getLast?_ne_space

theorem spacedAs_accept_leaf {d : Delimiters} (l : Leaf d) (r : Region) (line : Int) {spaced : Bool}
    (hsp : r.SpacedAs spaced) :
    (r.accept d ⟨l.kind, l.source, line⟩).SpacedAs (l.spaces spaced) := by
  intro hroot
  rw [accept_kind] at hroot
  have hlast := hsp hroot
  rw [Buffer.last?_eq_getLast?] at hlast ⊢
  rw [accept_toList, added_leaf l r line hsp, List.getLast?_append]
  cases l with
  | literal value h =>
    obtain ⟨ch, hch, hne⟩ := getLast?_emit_literal (d := d) r.kind spaced h
    rw [hch]
    simp [Leaf.spaces, hne]
  | comment value h => simpa [Leaf.emit, hroot, Leaf.spaces] using hlast
  | blank c h => cases spaced <;> simp_all [Leaf.emit, Leaf.spaces]
  | safe c h =>
    have hc : c ≠ ' ' := by
      rintro rfl
      exact absurd h.1.2.2 (by decide)
    simp [Leaf.emit, Leaf.spaces, hc]

end Region

namespace Descent

section Separate

variable {d : Dialect} {hd : d.Progressive} {r r' : Region} {c : Cursor}

/-- Reading goes on with `r'` behind `n` characters. -/
def Passes (d : Dialect) (hd : d.Progressive) (r : Region) (c : Cursor) (n : Nat) (r' : Region) :
    Prop :=
  read d hd r c = (read d hd r' (c.skip n)).map (after n)

theorem Passes.refl (d : Dialect) (hd : d.Progressive) (r : Region) (c : Cursor) :
    Passes d hd r c 0 r := by
  rw [Passes, Cursor.skip_zero]
  cases read d hd r c with
  | error failure => rfl
  | ok result => simp [Except.map, after]

theorem Passes.trans {m n : Nat} {r'' : Region} (h : Passes d hd r c m r')
    (h' : Passes d hd r' (c.skip m) n r'') : Passes d hd r c (m + n) r'' := by
  rw [Passes] at h h' ⊢
  rw [h, h', Cursor.skip_skip]
  cases read d hd r'' (c.skip (m + n)) with
  | error failure => rfl
  | ok result => simp [Except.map, after, Nat.add_assoc]

theorem passes_char (hs : d.toDelimiters.Separate) {ch : Char} {rest : List Char} (hp : Plain ch)
    (hc : c.rest = ch :: rest) (ho : ch ∉ r.childOpener d.toDelimiters)
    (he : ¬ r.Ends d.toDelimiters c) :
    Passes d hd r c 1
      (r.accept d.toDelimiters { kind := .text, value := [ch], line := c.line }) := by
  have hl : lexeme c.rest = .plain ch := by
    rw [hc]
    exact lexeme_plain hp.1 hp.2.1 hp.2.2 rest
  have hne := hs.ne_nil _ (Delimiters.Separate.opener_mem_all d.toDelimiters r.kind)
  exact read_text hl (Cursor.startsWith_eq_false hc hne ho) he

theorem not_ends (hs : d.toDelimiters.Separate) {ch : Char} {rest : List Char}
    (hc : c.rest = ch :: rest)
    (hm : r.kind ≠ .root → ch ∉ r.kind.closer d.toDelimiters) : ¬ r.Ends d.toDelimiters c := by
  rintro ⟨hroot, hstart, -⟩
  have hne := hs.ne_nil _ (Delimiters.Separate.closer_mem_all d.toDelimiters hroot)
  rw [Cursor.startsWith_eq_false hc hne (hm hroot)] at hstart
  cases hstart

theorem passes_leaf (hs : d.toDelimiters.Separate) (l : Leaf d.toDelimiters) {rest : List Char}
    (hc : c.rest = l.source ++ rest) :
    Passes d hd r c l.source.length (r.accept d.toDelimiters ⟨l.kind, l.source, c.line⟩) := by
  cases l with
  | literal value h => exact read_token (by rw [hc]; exact lexeme_literal h rest)
  | comment value h => exact read_token (by rw [hc]; exact lexeme_block h rest)
  | blank ch h => exact read_token (by rw [hc]; exact lexeme_blank h rest)
  | safe ch h =>
    have hc' : c.rest = ch :: rest := hc
    refine passes_char hs h.1 hc' (h.2 _ (Delimiters.Separate.opener_mem_all _ _)) ?_
    exact not_ends hs hc' fun hroot => h.2 _ (Delimiters.Separate.closer_mem_all _ hroot)

theorem bracket_plain (hs : d.toDelimiters.Separate) {ch : Char}
    (h : ch = d.exprOpen ∨ ch = d.exprClose) : Plain ch ∧ ch ≠ ' ' ∧ ch ∉ d.sheetOpen := by
  have hm : [ch] ∈ d.toDelimiters.all := by
    rcases h with rfl | rfl <;> simp [Delimiters.all]
  have hp := hs.plain _ hm ch List.mem_cons_self
  refine ⟨hp, ?_, ?_⟩
  · rintro rfl
    exact absurd hp.2.2 (by decide)
  · have hall := hs.disjoint
    simp only [Delimiters.all, List.pairwise_cons, List.mem_cons, forall_eq_or_imp] at hall
    rcases h with rfl | rfl
    · exact fun hmem => hall.1.2.1 hmem List.mem_cons_self
    · exact fun hmem => hall.1.2.2.1 hmem List.mem_cons_self

theorem exprOpen_ne_exprClose (hs : d.toDelimiters.Separate) : d.exprOpen ≠ d.exprClose := by
  intro he
  have h := hs.opener_disjoint_closer .sheet (show Region.Kind.expr ≠ .root by decide)
  exact h (List.mem_singleton.mpr rfl) (List.mem_singleton.mpr he)

theorem passes_bracketOpen (hs : d.toDelimiters.Separate) {rest : List Char} (hk : r.kind = .expr)
    (hc : c.rest = d.exprOpen :: rest) :
    Passes d hd r c 1 { r.write [d.exprOpen] with openBrackets := r.openBrackets + 1 } := by
  obtain ⟨hp, -, hmem⟩ := bracket_plain hs (.inl rfl)
  have hends : ¬ r.Ends d.toDelimiters c := by
    refine not_ends hs hc fun _ hm => ?_
    rw [hk] at hm
    exact exprOpen_ne_exprClose hs (List.mem_singleton.mp hm)
  have ht : Passes d hd r c 1 _ :=
    passes_char hs hp hc (by rw [Region.childOpener, hk]; exact hmem) hends
  simpa only [Region.accept, hk, Region.bracketsAfter, if_true] using ht

theorem passes_bracketClose (hs : d.toDelimiters.Separate) {rest : List Char} (hk : r.kind = .expr)
    (hb : r.openBrackets ≠ 0) (hc : c.rest = d.exprClose :: rest) :
    Passes d hd r c 1 { r.write [d.exprClose] with openBrackets := r.openBrackets - 1 } := by
  obtain ⟨hp, -, hmem⟩ := bracket_plain hs (.inr rfl)
  have hends : ¬ r.Ends d.toDelimiters c := fun he => hb (he.2.2 hk)
  have hne : [d.exprClose] ≠ [d.exprOpen] := fun he =>
    exprOpen_ne_exprClose hs (List.cons.inj he).1.symm
  have ht : Passes d hd r c 1 _ :=
    passes_char hs hp hc (by rw [Region.childOpener, hk]; exact hmem) hends
  simpa only [Region.accept, hk, Region.bracketsAfter, hne, hb, if_false, if_true, ne_eq,
    not_false_eq_true, and_self] using ht

theorem passes_inner (hs : d.toDelimiters.Separate) {source rest : List Char}
    (hc : c.rest = r.childOpener d.toDelimiters ++ (source ++
      (r.kind.child.closer d.toDelimiters ++ rest)))
    (hk : r'.kind = r.kind.child) (hb : r'.openBrackets = 0)
    (hi : Passes d hd
      { kind := r.kind.child, startLine := (c.skip (r.childOpener d.toDelimiters).length).line,
        dialect := d }
      (c.skip (r.childOpener d.toDelimiters).length) source.length r') :
    Passes d hd r c ((r.childOpener d.toDelimiters).length + source.length +
      (r.kind.child.closer d.toDelimiters).length)
      (r.fold d.toRuntime (r'.render d.toRuntime)) := by
  have hroot : r'.kind ≠ .root := by
    rw [hk]
    cases r.kind <;> decide
  have hend : ((c.skip (r.childOpener d.toDelimiters).length).skip source.length).rest =
      r'.kind.closer d.toDelimiters ++ rest := by
    rw [hk]
    simp [Cursor.skip, hc]
  obtain ⟨e, hemem, tail, hcons, hle⟩ :=
    hs.exists_lexeme (Delimiters.Separate.closer_mem_all _ hroot) hend
  have hno := Cursor.startsWith_eq_false hcons
    (hs.ne_nil _ (Delimiters.Separate.opener_mem_all _ r'.kind))
    fun hmem => hs.opener_disjoint_closer r'.kind hroot hmem hemem
  rw [Passes, read_ends hle hno ⟨hroot, Cursor.startsWith_append hend, fun _ => hb⟩] at hi
  obtain ⟨o, -, -, -, hlo⟩ := hs.exists_lexeme (Delimiters.Separate.opener_mem_all _ r.kind) hc
  exact read_inner_ok hlo (Cursor.startsWith_append hc) hi rfl

theorem splice_sheet (names : Runtime) (text : List Char) :
    RegionTree.splice names text .sheet =
      "' + ".toList ++ names.expressionCall ++ ['('] ++ text ++ ") + '".toList := rfl

theorem splice_host (names : Runtime) (text : List Char) {k : Region.Kind} (hk : k ≠ .sheet) :
    RegionTree.splice names text k =
      names.evaluateCall ++ ['(', '\''] ++ Text.trim text ++ ['\'', ')'] := by
  cases k with
  | root | expr => rfl
  | sheet => exact absurd rfl hk

theorem fold_render (names : Runtime) (hk : r'.kind = r.kind.child) :
    r.fold names (r'.render names) =
      r.write (RegionTree.splice names r'.content.toList r.kind) := by
  cases hr : r.kind with
  | sheet =>
    rw [hr] at hk
    simp only [Region.fold, Region.render, hr, hk, Region.Kind.child, splice_sheet]
  | root | expr =>
    rw [hr] at hk
    rw [splice_host names _ (by decide)]
    simp [Region.fold, Region.render, hr, hk, Region.Kind.child]

theorem splice_getLast? (names : Runtime) (text : List Char) (k : Region.Kind) :
    ∃ ch, (RegionTree.splice names text k).getLast? = some ch ∧ ch ≠ ' ' := by
  by_cases hk : k = .sheet
  · refine ⟨'\'', ?_, by decide⟩
    rw [hk, splice_sheet, List.getLast?_append]
    rfl
  · refine ⟨')', ?_, by decide⟩
    rw [splice_host names text hk, List.getLast?_append]
    rfl

/-- Behind the items of a tree the region has gathered what the tree is worth, and none of its own
brackets is open. -/
theorem passes_tree (hd : d.Progressive) (hs : d.toDelimiters.Separate) {k : Region.Kind} {n : Nat}
    (t : RegionTree d.toDelimiters k n) :
    ∀ (r : Region) (c : Cursor) (tail : List Char) (spaced : Bool), r.kind = k →
      r.openBrackets = n → r.SpacedAs spaced → c.rest = t.source ++ tail →
      ∃ r' : Region, r'.kind = k ∧ r'.openBrackets = 0 ∧
        r'.content.toList = r.content.toList ++ t.emit d.toRuntime spaced ∧
        Passes d hd r c t.source.length r' := by
  -- What follows the source is arbitrary: a child is followed by its closing delimiter and then by
  -- the rest of its parent.
  induction t with
  | nil =>
    intro r c tail spaced hk hb _ _
    exact ⟨r, hk, hb, by simp [RegionTree.emit], .refl d hd r c⟩
  | leaf l rest ih =>
    rintro r c tail spaced rfl hb hsp hc
    rw [RegionTree.source, List.append_assoc] at hc
    have htext := Region.accept_toList d.toDelimiters r ⟨l.kind, l.source, c.line⟩
    rw [Region.added_leaf l r c.line hsp] at htext
    have hrest : (c.skip l.source.length).rest = rest.source ++ tail := by
      simp [Cursor.skip, hc]
    obtain ⟨r', hk', hb', htext', hpass⟩ := ih _ (c.skip l.source.length) tail _
      (Region.accept_kind _ _ _) ((Region.accept_leaf_openBrackets l r c.line).trans hb)
      (Region.spacedAs_accept_leaf l r c.line hsp) hrest
    refine ⟨r', hk', hb', ?_, ?_⟩
    · rw [htext', htext, RegionTree.emit, List.append_assoc]
    · rw [RegionTree.source, List.length_append]
      exact (passes_leaf hs l hc).trans hpass
  | bracketOpen rest ih =>
    rintro r c tail spaced hk hb hsp hc
    have hrest : (c.skip 1).rest = rest.source ++ tail := by
      simp [Cursor.skip, hc, RegionTree.source]
    obtain ⟨r', hk', hb', htext', hpass⟩ := ih
      { r.write [d.exprOpen] with openBrackets := r.openBrackets + 1 } (c.skip 1) tail false hk
      (by simp [hb]) (Region.spacedAs_write r rfl (bracket_plain hs (.inl rfl)).2.1) hrest
    refine ⟨r', hk', hb', ?_, ?_⟩
    · rw [htext', Region.write_toList, RegionTree.emit, List.append_assoc]
      rfl
    · rw [RegionTree.source, List.length_cons, Nat.add_comm]
      exact (passes_bracketOpen hs hk hc).trans hpass
  | bracketClose rest ih =>
    rintro r c tail spaced hk hb hsp hc
    have hrest : (c.skip 1).rest = rest.source ++ tail := by
      simp [Cursor.skip, hc, RegionTree.source]
    have hb₀ : r.openBrackets ≠ 0 := by omega
    obtain ⟨r', hk', hb', htext', hpass⟩ := ih
      { r.write [d.exprClose] with openBrackets := r.openBrackets - 1 } (c.skip 1) tail false hk
      (by simp [hb]) (Region.spacedAs_write r rfl (bracket_plain hs (.inr rfl)).2.1) hrest
    refine ⟨r', hk', hb', ?_, ?_⟩
    · rw [htext', Region.write_toList, RegionTree.emit, List.append_assoc]
      rfl
    · rw [RegionTree.source, List.length_cons, Nat.add_comm]
      exact (passes_bracketClose hs hk hb₀ hc).trans hpass
  | inner child rest ihchild ihrest =>
    rintro r c tail spaced rfl hb hsp hc
    have hc' : c.rest = r.childOpener d.toDelimiters ++ (child.source ++
        (r.kind.child.closer d.toDelimiters ++ (rest.source ++ tail))) := by
      simpa only [RegionTree.source, List.append_assoc, Region.childOpener] using hc
    have hstart : (c.skip (r.childOpener d.toDelimiters).length).rest =
        child.source ++ (r.kind.child.closer d.toDelimiters ++ (rest.source ++ tail)) := by
      simp [Cursor.skip, hc']
    obtain ⟨a, hka, hba, htexta, hpassa⟩ := ihchild
      { kind := r.kind.child, startLine := (c.skip (r.childOpener d.toDelimiters).length).line,
        dialect := d }
      (c.skip (r.childOpener d.toDelimiters).length) _ false rfl rfl
      (fun _ => by simp [Buffer.last?]) hstart
    have hpass := passes_inner hs hc' hka hba hpassa
    rw [fold_render d.toRuntime hka] at hpass
    obtain ⟨ch, hlast, hch⟩ := splice_getLast? d.toRuntime a.content.toList r.kind
    have hbehind : (c.skip ((r.childOpener d.toDelimiters).length + child.source.length +
        (r.kind.child.closer d.toDelimiters).length)).rest = rest.source ++ tail := by
      simp [Cursor.skip, hc', Nat.add_assoc]
    obtain ⟨r', hk', hb', htext', hpass'⟩ := ihrest _ _ tail false
      (Region.write_kind _ _) hb (Region.spacedAs_write r hlast hch) hbehind
    refine ⟨r', hk', hb', ?_, ?_⟩
    · rw [htext', Region.write_toList, RegionTree.emit, List.append_assoc, htexta]
      rfl
    · have hlen := hpass.trans hpass'
      simpa only [RegionTree.source, List.length_append, Region.childOpener] using hlen

theorem region_tree (hs : d.toDelimiters.Separate) (t : RegionTree d.toDelimiters .root 0)
    (line : Int) :
    (region d hd .root t.source line).map Prod.fst = .ok (t.emit d.toRuntime false) := by
  obtain ⟨r, hk, -, htext, hpass⟩ := passes_tree hd hs t
    { kind := .root, startLine := line, dialect := d } (.ofList t.source line) [] false rfl rfl
    (fun hroot => absurd rfl hroot) (List.append_nil _).symm
  have hl : lexeme (Cursor.skip (.ofList t.source line) t.source.length).rest = .nothing := by
    simp [Cursor.skip, Cursor.ofList, lexeme]
  have hrender : r.render d.toRuntime = t.emit d.toRuntime false := by
    simp only [Region.render, hk, htext]
    rfl
  rw [region, hpass, read_atEnd hl, if_pos hk, hrender]
  rfl

end Separate

end Descent

/-- The source of every region tree is accepted and worth what the tree is worth. -/
theorem RegionTree.transpile_source (d : Dialect) (hs : d.toDelimiters.Separate) (file : String)
    (t : RegionTree d.toDelimiters .root 0) :
    transpile d file (String.ofList t.source) = .ok (String.ofList (t.emit d.toRuntime false)) := by
  have hrun := (Transpiler.run_new d file 1 (String.ofList t.source)).2
  rw [String.toList_ofList, Descent.run_begun hs.progressive, Descent.region_tree hs] at hrun
  exact hrun

theorem Dialect.standard_separate : Dialect.standard.toDelimiters.Separate := by
  constructor
  · decide
  · intro delimiter hd c hc
    simp only [Delimiters.all, Dialect.standard, List.mem_cons, List.not_mem_nil, or_false] at hd
    rcases hd with rfl | rfl | rfl | rfl <;>
      simp only [List.mem_cons, List.not_mem_nil, or_false, or_self] at hc <;> subst hc <;> decide
  · simp [Delimiters.all, Dialect.standard, List.Disjoint]

/-- Nested regions of every kind, with a quoted text, blanks, a comment and a bracket. -/
def RegionTree.nested : RegionTree Dialect.standard.toDelimiters .root 0 :=
  .leaf (.safe 'p' (by decide)) <|
  .inner
    (.leaf (.literal ['\'', 'q', '\''] ⟨'\'', ['q'], by decide,
        .bare 'q' (by decide) (by decide) (by decide) .nil, rfl⟩) <|
      .leaf (.blank '\t' (by decide)) <|
      .leaf (.blank '\n' (by decide)) <|
      .inner
        (.leaf (.safe 'f' (by decide)) <|
          .bracketOpen <|
          .inner (.leaf (.blank ' ' (by decide)) <| .leaf (.safe 'r' (by decide)) .nil) <|
          .bracketClose .nil)
        .nil) <|
  .leaf (.comment ['/', '*', '*', '/'] ⟨[], by decide, rfl⟩) .nil

theorem RegionTree.transpile_source_nested :
    Dialect.standard.toDelimiters.Separate ∧
    transpile Dialect.standard "page" "p<<'q'\t\n[f[<< r>>]]>>/**/" =
      .ok ("psheath.css.evaluate('\\'q\\' ' + sheath.css.jsExpr(f[sheath.css.evaluate('r')]) + '')" ++
        "/**/") := by
  have hs := Dialect.standard_separate
  exact ⟨hs, RegionTree.transpile_source Dialect.standard hs "page" RegionTree.nested⟩

end InlineSheet
