import InlineSheet.Proofs.OpenRegions
import InlineSheet.Proofs.Outcome
import InlineSheet.Proofs.Seam

/-!
# Completing a source

A run that ends inside a region leaves behind which delimiters the source lacks: `missing` reads
them off the open regions. Main statement, for the standard delimiters: on a new line behind the
source these delimiters close all regions, and fewer of them do not. A new line ends all that could
swallow a delimiter but a block comment that is never closed, which is left out.
-/
namespace InlineSheet

/-- A block comment that runs to the end of the input. -/
def Comment.Unclosed (value : List Char) : Prop := ['/', '*'] <+: value ∧ ¬ Block value

/-- A block comment that is not closed is all that is left of the text. -/
theorem Comment.Unclosed.eq_of_lexeme {cs value : List Char} (h : Comment.Unclosed value)
    (hl : lexeme cs = .token .comment value) : value = cs := by
  obtain ⟨tail, ht⟩ := h.1.trans (admits_of_lexeme_token hl).1
  obtain rfl : cs = '/' :: '*' :: tail := ht.symm
  rw [lexeme_slash] at hl
  obtain rfl : '/' :: '*' :: scanToClose tail = value := (Lexeme.token.inj hl).2
  rcases scanToClose_cases tail with hall | ⟨body, hb, hclose⟩
  · rw [hall]
  · exact absurd ⟨body, hb, by rw [hclose]⟩ h.2

/-- A token stays the same if a new line comes behind the text, unless it is a block comment that is
not closed. -/
theorem lexeme_append_newline {front value : List Char} {kind : Token.Kind}
    (hl : lexeme front = .token kind value) (hu : kind = .comment → ¬ Comment.Unclosed value)
    (more : List Char) : lexeme (front ++ '\n' :: more) = .token kind value := by
  obtain ⟨⟨tail, rfl⟩, hadmits⟩ := admits_of_lexeme_token hl
  cases kind with
  | string =>
    rw [List.append_assoc]
    exact lexeme_literal hadmits _
  | whitespace =>
    obtain ⟨c, hc, rfl⟩ := hadmits
    exact lexeme_blank hc _
  | text =>
    obtain rfl := eq_slash_of_lexeme_text hl
    have hscan : (Comment.scan ('/' :: tail)).1 = .text := by
      rw [List.singleton_append, lexeme_slash] at hl
      exact (Lexeme.token.inj hl).1
    have hslash : (tail ++ '\n' :: more).head? ≠ some '/' := by
      cases tail with
      | nil => simp
      | cons c tail =>
        rintro ⟨⟩
        cases hscan
    have hstar : (tail ++ '\n' :: more).head? ≠ some '*' := by
      cases tail with
      | nil => simp
      | cons c tail =>
        rintro ⟨⟩
        cases hscan
    rw [List.append_assoc, List.singleton_append, lexeme_slash, Comment.scan_text hslash hstar]
  | comment =>
    rcases hadmits with ⟨⟨body, rfl⟩, -⟩ | hopen
    · have hvalue : Comment.scanLine ('/' :: '/' :: (body ++ tail)) = '/' :: '/' :: body := by
        change lexeme ('/' :: '/' :: (body ++ tail)) = _ at hl
        rw [lexeme_slash] at hl
        exact (Lexeme.token.inj hl).2
      have hline : Comment.scanLine ('/' :: '/' :: (body ++ tail) ++ '\n' :: more) =
          Comment.scanLine ('/' :: '/' :: (body ++ tail) ++ []) :=
        Comment.scanLine_append (List.append_nil _ ▸ List.takeWhile_prefix _) (by simp)
      rw [List.append_nil, hvalue] at hline
      change lexeme ('/' :: '/' :: (body ++ tail ++ '\n' :: more)) = _
      rw [lexeme_slash]
      exact congrArg (Lexeme.token .comment) hline
    · have hblock : Comment.Block value := by
        by_contra hblock
        exact hu rfl ⟨hopen, hblock⟩
      rw [List.append_assoc]
      exact lexeme_block hblock _

namespace Machine

variable {d : Dialect} {m m' : Machine}

theorem Reaches.eq_of_atEnd (h : Reaches m m') (hr : m.cursor.rest = []) : m' = m := by
  rcases Relation.ReflTransGen.cases_head h with he | ⟨_, hg, -⟩
  · exact he.symm
  · exact absurd hr hg.1

/-- The end of the source is come to in the same way when a new line stands there. -/
theorem Reaches.facing_newline (h : Reaches m m') (hn : Nested d m.stack)
    (hopen : '\n' ∉ d.sheetOpen) (hclose : '\n' ∉ d.sheetClose) (hr' : m'.cursor.rest = [])
    (hlast : ∀ receiver t, m'.trace.toList.getLast? = some (.token receiver t) →
      t.kind = .comment → ¬ Comment.Unclosed t.value) (more : List Char) :
    Reaches (m.facing (m.cursor.rest ++ '\n' :: more)) (m'.facing ('\n' :: more)) := by
  refine h.facing_of_chooses hn (List.append_nil _).symm hr' fun b a front hn hc hrest hr hs => ?_
  have hne : front ≠ [] := by
    rintro rfl
    exact (hc.move hn).rest_ne_nil hr
  refine hc.facing_of_lexeme hr hne hs ?_ ?_
  · rintro kind value rfl hl
    rw [List.append_nil] at hl hr
    refine lexeme_append_newline hl ?_ more
    rintro rfl hu
    -- A block comment that is not closed is the last token of the run.
    have hall : (b.apply d (.take .comment value)).cursor.rest = [] := by
      rw [hc.cursor_apply.1]
      change b.cursor.rest.drop value.length = []
      rw [hr, hu.eq_of_lexeme hl, List.drop_length]
    obtain rfl := Reaches.eq_of_atEnd hrest hall
    refine hlast b.top.kind { kind := .comment, value, line := b.cursor.line } ?_ rfl hu
    change (b.trace.push _).toList.getLast? = _
    rw [Array.toList_push, List.getLast?_concat]
  · intro mark hm hp
    rw [List.append_nil]
    rcases hm with rfl | rfl | hm
    · exact Delimiters.isPrefix_of_not_mem hp hopen
    · exact Delimiters.isPrefix_of_not_mem hp hclose
    · have hpos := List.length_pos_iff.mpr hne
      exact List.prefix_of_prefix_length_le hp (List.prefix_append front _) (by omega)

end Machine

/-- The text that closes a region, each of its own open brackets included. -/
def Region.missing (d : Delimiters) (r : Region) : List Char :=
  match r.kind with
  | .root => []
  | .sheet => d.sheetClose
  | .expr => List.replicate (r.openBrackets.toNat + 1) d.exprClose

theorem Region.missing_congr (d : Delimiters) {r r' : Region} (hk : r'.kind = r.kind)
    (hb : r'.openBrackets = r.openBrackets) : r'.missing d = r.missing d := by
  simp only [missing, hk, hb]

namespace Machine

/-- The text that closes all open regions, from the inside out. -/
def missing (d : Delimiters) (m : Machine) : List Char := m.stack.flatMap (Region.missing d)

variable {d : Dialect} {m m' : Machine} {lack rest : List Char}

theorem missing_eq (d : Delimiters) (m : Machine) :
    m.missing d = m.top.missing d ++ m.below.flatMap (Region.missing d) := by
  simp [missing, stack]

/-- A region that is folded in leaves what the one around it lacks. -/
theorem missing_left (d : Dialect) {parent : Region} {below : List Region}
    (hb : m.below = parent :: below) :
    (m.left d parent below).missing d.toDelimiters =
      m.below.flatMap (Region.missing d.toDelimiters) := by
  have htop : (m.left d parent below).top.missing d.toDelimiters =
      parent.missing d.toDelimiters :=
    Region.missing_congr _ (Region.fold_kind _ _ _) (Region.fold_openBrackets _ _ _)
  rw [missing_eq, htop, hb, List.flatMap_cons]
  rfl

theorem Nested.missing_eq_nil_iff (hn : Nested d m.stack) (hd : d.sheetClose ≠ []) :
    m.missing d.toDelimiters = [] ↔ m.top.kind = .root := by
  rw [missing_eq]
  cases hk : m.top.kind with
  | root =>
    have hb : m.below = [] := hn.below_eq_nil hk
    simp [Region.missing, hk, hb]
  | sheet => simp [Region.missing, hk, hd]
  | expr => simp [Region.missing, hk, List.replicate_succ]

/-- The machine has read some of the missing delimiters, and lacks the others still. Where the input
ends inside a delimiter, that one is lacking as a whole. -/
def Lacks (d : Dialect) (lack : List Char) (m : Machine) : Prop :=
  m.missing d.toDelimiters = m.cursor.rest ++ lack ∨
    (m.cursor.rest = [] ∧ m.top.kind ≠ .root ∧ lack ≠ [])

theorem exists_move_leave (hn : Nested d m.stack) {c : Char} (hl : lexeme m.cursor.rest = .plain c)
    (ho : m.cursor.startsWith (m.top.childOpener d.toDelimiters) = false)
    (he : m.top.Ends d.toDelimiters m.cursor)
    (hr : m.cursor.rest = m.top.kind.closer d.toDelimiters ++ rest) :
    ∃ m', Move d m m' ∧ m'.cursor.rest = rest ∧
      m'.missing d.toDelimiters = m.below.flatMap (Region.missing d.toDelimiters) := by
  obtain ⟨parent, below, hb⟩ := List.exists_cons_of_ne_nil (hn.below_ne_nil he.1)
  exact ⟨_, .leave c hl ho he parent below hb (hn.around hb).2.1, (Cursor.skip_append hr).1,
    missing_left d hb⟩

section Standard

variable (hd : d.toDelimiters = Dialect.standard.toDelimiters)

include hd

/-- The text that closes a region begins with a plain character, and no region opens at it. -/
theorem faces_closer {c : Char} (hc : (m.top.kind.closer d.toDelimiters).head? = some c)
    (hr : m.cursor.rest = c :: rest) :
    lexeme m.cursor.rest = .plain c ∧
      m.cursor.startsWith (m.top.childOpener d.toDelimiters) = false := by
  rw [hd, Region.childOpener, Cursor.startsWith, hr]
  rw [hd] at hc
  cases hk : m.top.kind <;> rw [hk] at hc <;> cases hc
  · exact ⟨lexeme_plain (by decide) (by decide) (by decide) rest, rfl⟩
  · exact ⟨lexeme_plain (by decide) (by decide) (by decide) rest, rfl⟩

theorem exists_move_sheet (hn : Nested d m.stack) (hk : m.top.kind = .sheet)
    (hm : m.missing d.toDelimiters = m.cursor.rest ++ lack) (hr : m.cursor.rest ≠ []) :
    ∃ m', Move d m m' ∧ m'.cursor.rest.length < m.cursor.rest.length ∧ m'.Lacks d lack := by
  have hcloser : m.top.kind.closer d.toDelimiters = ['>', '>'] := by
    rw [hd, hk]
    rfl
  have hmissing : m.top.missing d.toDelimiters = ['>', '>'] := by
    rw [hd, Region.missing, hk]
    rfl
  obtain ⟨c, rest, hrest⟩ := List.exists_cons_of_ne_nil hr
  rw [missing_eq, hmissing, hrest] at hm
  obtain ⟨hc, htail⟩ := List.cons.inj hm
  obtain ⟨hl, ho⟩ := faces_closer hd (by rw [hcloser, ← hc]; rfl) hrest
  cases rest with
  | nil =>
    have he : ¬ m.top.Ends d.toDelimiters m.cursor := by
      intro he
      have hstart := he.2.1
      rw [hcloser, Cursor.startsWith, hrest, ← hc] at hstart
      cases hstart
    refine ⟨_, .text c hl ho he, ?_, .inr ⟨?_, ?_, ?_⟩⟩
    · simp [took, Cursor.skip, hrest]
    · simp [took, Cursor.skip, hrest]
    · simp [took, hk]
    · exact fun hnil => List.cons_ne_nil _ _ (htail.trans hnil)
  | cons c' rest =>
    obtain ⟨hc', hlack⟩ := List.cons.inj htail
    have hfront : m.cursor.rest = m.top.kind.closer d.toDelimiters ++ rest := by
      rw [hcloser, hrest, ← hc, ← hc']
      rfl
    have he : m.top.Ends d.toDelimiters m.cursor := by
      refine ⟨by rw [hk]; decide, ?_, fun hexpr => by rw [hk] at hexpr; cases hexpr⟩
      exact List.isPrefixOf_iff_prefix.mpr ⟨rest, hfront.symm⟩
    obtain ⟨m', hmove, hrest', hmissing'⟩ := exists_move_leave hn hl ho he hfront
    refine ⟨m', hmove, ?_, .inl ?_⟩
    · rw [hrest', hrest]
      simp only [List.length_cons]
      omega
    · rw [hmissing', hrest']
      exact hlack

/-- A host expression takes in closing brackets of its own before it closes. -/
theorem exists_move_expr (hs : Region.Stacked d m.cursor.line m.stack) (hk : m.top.kind = .expr)
    (hm : m.missing d.toDelimiters = m.cursor.rest ++ lack) (hr : m.cursor.rest ≠ []) :
    ∃ m', Move d m m' ∧ m'.cursor.rest.length < m.cursor.rest.length ∧ m'.Lacks d lack := by
  have hclose : d.exprClose = ']' := congrArg Delimiters.exprClose hd
  have hmissing (r : Region) (hr : r.kind = .expr) : r.missing d.toDelimiters =
      ']' :: List.replicate r.openBrackets.toNat ']' := by
    rw [Region.missing, hr, hclose]
    rfl
  obtain ⟨c, rest, hrest⟩ := List.exists_cons_of_ne_nil hr
  rw [missing_eq, hmissing m.top hk, hrest] at hm
  obtain ⟨hc, htail⟩ := List.cons.inj hm
  rw [← hc] at hrest
  have hcloser : m.top.kind.closer d.toDelimiters = [']'] := by
    rw [hd, hk]
    rfl
  obtain ⟨hl, ho⟩ := faces_closer hd (by rw [hcloser]; rfl) hrest
  have hends : m.top.Ends d.toDelimiters m.cursor ↔ m.top.openBrackets = 0 :=
    Region.ends_expr_iff hk (by rw [hclose]; exact hrest)
  by_cases hz : m.top.openBrackets = 0
  · have hfront : m.cursor.rest = m.top.kind.closer d.toDelimiters ++ rest := by
      rw [hcloser, hrest]
      rfl
    obtain ⟨m', hmove, hrest', hmissing'⟩ :=
      exists_move_leave hs.nested hl ho (hends.mpr hz) hfront
    refine ⟨m', hmove, ?_, .inl ?_⟩
    · rw [hrest', hrest]
      exact Nat.lt_succ_self _
    · rw [hmissing', hrest']
      rw [hz] at htail
      exact htail
  · have hnonneg := (hs.counts m.top List.mem_cons_self).1
    refine ⟨_, .text ']' hl ho (fun he => hz (hends.mp he)), ?_, .inl ?_⟩
    · simp [took, Cursor.skip, hrest]
    · have hkind : (m.took d.toDelimiters .text [']']).top.kind = .expr :=
        (Region.accept_kind _ _ _).trans hk
      have hbrackets : (m.took d.toDelimiters .text [']']).top.openBrackets =
          m.top.openBrackets - 1 := by
        have hopen : d.exprOpen = '[' := congrArg Delimiters.exprOpen hd
        change (m.top.accept d.toDelimiters _).openBrackets = _
        rw [Region.accept_openBrackets d.toDelimiters hk]
        simp [Region.Entry.IsText, hopen, hclose, hz]
      have hcount : m.top.openBrackets.toNat = (m.top.openBrackets - 1).toNat + 1 := by omega
      have hrest' : (m.took d.toDelimiters .text [']']).cursor.rest = rest := by
        simp [took, Cursor.skip, hrest]
      rw [missing_eq, hmissing _ hkind, hbrackets, hrest']
      rw [hcount, List.replicate_succ] at htail
      exact htail

/-- In front of missing delimiters a run comes to the end of the input, and only the root is then
open just if none are lacking. -/
theorem Lacks.exists_reaches (hs : Region.Stacked d m.cursor.line m.stack) (h : m.Lacks d lack) :
    ∃ m', Reaches m m' ∧ m'.cursor.rest = [] ∧ (m'.top.kind = .root ↔ lack = []) := by
  have hclose : d.sheetClose ≠ [] := by
    have heq : d.sheetClose = ['>', '>'] := congrArg Delimiters.sheetClose hd
    simp [heq]
  induction hsize : m.cursor.rest.length using Nat.strong_induction_on generalizing m with
  | _ n ih =>
    by_cases hr : m.cursor.rest = []
    · refine ⟨m, .refl, hr, ?_⟩
      rcases h with hm | ⟨-, hk, hlack⟩
      · rw [hr, List.nil_append] at hm
        rw [← hm]
        exact (hs.nested.missing_eq_nil_iff hclose).symm
      · exact iff_of_false hk hlack
    · have hm := h.resolve_right fun hend => hr hend.1
      have hnext : ∃ m', Move d m m' ∧ m'.cursor.rest.length < m.cursor.rest.length ∧
          m'.Lacks d lack := by
        cases hk : m.top.kind with
        | root =>
          rw [(hs.nested.missing_eq_nil_iff hclose).mpr hk] at hm
          exact absurd (List.append_eq_nil_iff.mp hm.symm).1 hr
        | sheet => exact exists_move_sheet hd hs.nested hk hm hr
        | expr => exact exists_move_expr hd hs hk hm hr
      obtain ⟨m', hmove, hlt, hlacks⟩ := hnext
      obtain ⟨last, hp, hend, hroot⟩ :=
        ih _ (hsize ▸ hlt) (hmove.acts.stacked hs) hlacks rfl
      exact ⟨last, .head (hmove.goes hs.nested) hp, hend, hroot⟩

/-- Behind a source whose run has come to its end, with a new line and some of the missing
delimiters added, the root alone is left just if none are lacking. -/
theorem Reaches.run_supplied {source k : List Char} {line : Int}
    (h : Reaches (begun d source line) m) (hr : m.cursor.rest = [])
    (hlast : ∀ receiver t, m.trace.toList.getLast? = some (.token receiver t) →
      t.kind = .comment → ¬ Comment.Unclosed t.value)
    (hk : m.missing d.toDelimiters = k ++ lack) :
    ∃ m', (begun d (source ++ '\n' :: k) line).run = { machine := m' } ∧
      (m'.top.kind = .root ↔ lack = []) := by
  have hopen : d.sheetOpen = ['<', '<'] := congrArg Delimiters.sheetOpen hd
  have hclose : d.sheetClose = ['>', '>'] := congrArg Delimiters.sheetClose hd
  have hfacing : Reaches (begun d (source ++ '\n' :: k) line) (m.facing ('\n' :: k)) :=
    h.facing_newline (begun_nested d source line) (by rw [hopen]; decide)
      (by rw [hclose]; decide) hr hlast k
  have hpath := hfacing.took (begun_nested d _ line) (lexeme_blank (by decide) k)
  have hstacked := hpath.stacked (.root d line)
  have htop : (m.top.accept d.toDelimiters
      { kind := .whitespace, value := ['\n'], line := m.cursor.line }).missing d.toDelimiters =
      m.top.missing d.toDelimiters :=
    Region.missing_congr _ (Region.accept_kind _ _ _)
      (Region.accept_openBrackets_eq _ fun _ => nofun)
  have hlacks : ((m.facing ('\n' :: k)).took d.toDelimiters .whitespace ['\n']).Lacks d lack := by
    refine .inl ?_
    rw [missing_eq] at hk ⊢
    change (m.top.accept _ _).missing _ ++ m.below.flatMap _ = k ++ lack
    rw [← hk]
    exact congrArg (· ++ _) htop
  obtain ⟨m', hp, hend, hroot⟩ := hlacks.exists_reaches hd hstacked
  have hprogressive : d.Progressive := .inl (by rw [hopen]; simp)
  exact ⟨m', run_eq hprogressive (begun_nested _ _ _) (hpath.trans hp) (.atEnd hend), hroot⟩

end Standard

end Machine

/-- The last event, if it is a token, is the last of the tokens. -/
theorem Event.getLast?_tokens {events : List Event} {receiver : Region.Kind} {t : Token}
    (h : events.getLast? = some (.token receiver t)) :
    (events.filterMap Event.token?).getLast? = some (receiver, t) := by
  obtain ⟨front, rfl⟩ := List.getLast?_eq_some_iff.mp h
  rw [List.filterMap_append]
  exact List.getLast?_concat

namespace Transpiler

open Machine

/-- A run that comes to the end of its source is accepted just if only the root is left. -/
theorem run_atEnd {d : Dialect} {line : Int} {source : String} {m : Machine}
    (h : (begun d source.toList line).run = { machine := m }) (file : String) :
    (m.top.kind = .root → ∃ output, (new d file line source).run.2 = .ok output) ∧
    (m.top.kind ≠ .root → ∃ diagnostic, (new d file line source).run.2 = .error diagnostic ∧
      diagnostic.category? = some .unterminatedRegion) := by
  have hanswer : (new d file line source).run.2 = answer d file (m.result d) := by
    rw [(run_new d file line source).2, h]
    rfl
  rw [hanswer, result]
  constructor
  · intro hk
    rw [if_pos hk]
    exact ⟨_, rfl⟩
  · intro hk
    rw [if_neg hk]
    exact ⟨_, rfl, rfl⟩

/-- A source that ends inside a region lacks the delimiters that close the open regions, all of
them. -/
theorem run_append_missing (d : Dialect) (hd : d.toDelimiters = Dialect.standard.toDelimiters)
    (file : String) (line : Int) (source : String) (diagnostic : Diagnostic)
    (hrun : (new d file line source).run.2 = .error diagnostic)
    (hcategory : diagnostic.category? = some .unterminatedRegion)
    (hlast : ∀ p ∈ (new d file line source).run.1.tokens.getLast?,
      p.2.kind = .comment → ¬ Comment.Unclosed p.2.value) :
    (∃ output, (new d file line (source ++ "\n" ++ String.ofList
      ((new d file line source).run.1.machine.missing d.toDelimiters))).run.2 = .ok output) ∧
    ∀ k, k <+: (new d file line source).run.1.machine.missing d.toDelimiters →
      k ≠ (new d file line source).run.1.machine.missing d.toDelimiters →
      ∃ still, (new d file line (source ++ "\n" ++ String.ofList k)).run.2 = .error still ∧
        still.category? = some .unterminatedRegion := by
  have hprogressive : d.Progressive := by
    have hopen : d.sheetOpen = ['<', '<'] := congrArg Delimiters.sheetOpen hd
    exact .inl (by simp [hopen])
  obtain ⟨hmachine, hanswer⟩ := run_new d file line source
  rw [hanswer] at hrun
  obtain ⟨m, hp, ⟨hr, he⟩ | ⟨ending, taken, -, he⟩⟩ :=
    run_begun_stops hprogressive source.toList line
  · rw [tokens, hmachine, he] at hlast
    rw [hmachine, he]
    have hcomment (receiver : Region.Kind) (t : Token)
        (ht : m.trace.toList.getLast? = some (.token receiver t)) :
        t.kind = .comment → ¬ Comment.Unclosed t.value :=
      hlast (receiver, t) (Event.getLast?_tokens ht)
    have hsupplied (k lack : List Char) (hk : m.missing d.toDelimiters = k ++ lack) :
        ∃ m', (begun d (source ++ "\n" ++ String.ofList k).toList line).run = { machine := m' } ∧
          (m'.top.kind = .root ↔ lack = []) := by
      have htext : (source ++ "\n" ++ String.ofList k).toList = source.toList ++ '\n' :: k := by
        simp
      rw [htext]
      exact hp.run_supplied hd hr hcomment hk
    constructor
    · obtain ⟨m', hend, hroot⟩ := hsupplied _ [] (List.append_nil _).symm
      exact (run_atEnd hend file).1 (hroot.mpr rfl)
    · rintro k ⟨lack, hk⟩ hne
      obtain ⟨m', hend, hroot⟩ := hsupplied k lack hk.symm
      refine (run_atEnd hend file).2 fun hkind => hne ?_
      rw [hroot.mp hkind, List.append_nil] at hk
      exact hk
  · rw [he] at hrun
    have hreport := Failure.category?_report_ending d.toDelimiters file
      (m.cursor.skip taken.length).line ending
    rw [Except.error.inj hrun, hcategory] at hreport
    cases hreport

/-- A bracket of the host expression is open as well, and a line comment comes last. -/
theorem run_append_missing_nested :
    (new .standard "page" 1 "<<a[b[<<c//").run.1.machine.missing Dialect.standard.toDelimiters =
      ">>]]>>".toList ∧
    (∃ output, (new .standard "page" 1 "<<a[b[<<c//\n>>]]>>").run.2 = .ok output) ∧
    ∃ diagnostic, (new .standard "page" 1 "<<a[b[<<c//\n>>]]>").run.2 = .error diagnostic ∧
      diagnostic.category? = some .unterminatedRegion := by
  have hmissing : (new .standard "page" 1 "<<a[b[<<c//").run.1.machine.missing
      Dialect.standard.toDelimiters = ">>]]>>".toList := by
    decide +kernel
  have hrun : (new .standard "page" 1 "<<a[b[<<c//").run.2 =
      .error (.located (.unterminatedRegion "stylesheet expression" ">>" 1) (some 1)
        (some "page")) := by
    decide +kernel
  have htoken : (new .standard "page" 1 "<<a[b[<<c//").run.1.tokens.getLast? =
      some (.sheet, { kind := .comment, value := ['/', '/'], line := 1 }) := by
    decide +kernel
  have hclosed : ∀ p ∈ (new .standard "page" 1 "<<a[b[<<c//").run.1.tokens.getLast?,
      p.2.kind = .comment → ¬ Comment.Unclosed p.2.value := by
    rw [htoken]
    rintro p ⟨⟩ - hunclosed
    exact absurd hunclosed.1 (by decide)
  obtain ⟨hall, hfewer⟩ :=
    run_append_missing .standard rfl "page" 1 "<<a[b[<<c//" _ hrun rfl hclosed
  rw [hmissing] at hall hfewer
  exact ⟨hmissing, hall, hfewer ">>]]>".toList (by decide) (by decide)⟩

end Transpiler

end InlineSheet
