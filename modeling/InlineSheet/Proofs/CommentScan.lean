import InlineSheet.Proofs.Seam
import Mathlib.Data.Nat.Find

/-!
# Reading a comment

What reading in front of a slash comes to is settled by the text ahead. `Comment.Ahead` says what stands
there without reading it: a comment to the end of its line, a block comment up to the first star and
slash behind its opening, one that is never closed, or a slash alone. Main statement: just one of these
stands in front of a slash, and reading takes it and hands it to the innermost region, neither more nor
less. Which region is open makes no difference.
-/
namespace InlineSheet

namespace Comment

/-- The longest front of the text that holds no line break. -/
structure IsLine (cs value : List Char) : Prop where
  isPrefix : value <+: cs
  unbroken : '\n' ∉ value
  longest : ∀ other, other <+: cs → '\n' ∉ other → other <+: value

/-- A star and a slash stand `n` characters further on. -/
def ClosesAt (cs : List Char) (n : Nat) : Prop := ['*', '/'] <+: cs.drop n

/-- The first star and slash behind an opening of two characters stand `n` characters further on. The
star of the opening itself closes nothing. -/
structure FirstClose (cs : List Char) (n : Nat) : Prop where
  behind : 2 ≤ n
  closes : ClosesAt cs n
  first : ∀ k, 2 ≤ k → k < n → ¬ ClosesAt cs k

/-- What stands at the front of a text that begins with a slash, and the kind of token it is. -/
inductive Ahead (cs : List Char) : Token.Kind → List Char → Prop
  | line {value : List Char} (ho : ['/', '/'] <+: cs) (hv : IsLine cs value) :
      Ahead cs .comment value
  | block {n : Nat} (ho : ['/', '*'] <+: cs) (hn : FirstClose cs n) :
      Ahead cs .comment (cs.take (n + 2))
  | unclosed (ho : ['/', '*'] <+: cs) (hn : ∀ n, 2 ≤ n → ¬ ClosesAt cs n) : Ahead cs .comment cs
  | slash (hl : ¬ ['/', '/'] <+: cs) (hb : ¬ ['/', '*'] <+: cs) : Ahead cs .text ['/']

theorem isLine_scanLine (cs : List Char) : IsLine cs (scanLine cs) where
  isPrefix := List.takeWhile_prefix _
  unbroken := by
    intro hn
    simpa using List.mem_takeWhile_imp hn
  longest := by
    intro other hp hn
    induction cs generalizing other with
    | nil => exact List.prefix_nil.mp hp ▸ List.nil_prefix
    | cons c cs ih =>
      cases other with
      | nil => exact List.nil_prefix
      | cons e other =>
        obtain ⟨rfl, htail⟩ := List.cons_prefix_cons.mp hp
        have hc := List.ne_of_not_mem_cons hn
        rw [scanLine_cons, if_neg (Ne.symm hc)]
        exact List.cons_prefix_cons.mpr ⟨rfl, ih other htail (List.not_mem_of_not_mem_cons hn)⟩

theorem IsLine.eq_scanLine {cs value : List Char} (h : IsLine cs value) : scanLine cs = value := by
  have hs := isLine_scanLine cs
  have hle := hs.longest _ h.isPrefix h.unbroken
  exact (h.longest _ hs.isPrefix hs.unbroken).eq_of_length_le hle.length_le

theorem ClosesAt.of_infix {cs body : List Char} (h : ['*', '/'] <:+: body) (hp : body <+: cs) :
    ∃ n, n + 2 ≤ body.length ∧ ClosesAt cs n := by
  obtain ⟨front, back, rfl⟩ := h
  obtain ⟨tail, rfl⟩ := hp
  refine ⟨front.length, by simp, back ++ tail, ?_⟩
  simp

/-- Up to the first close the text is a block comment. -/
theorem FirstClose.block {tail : List Char} {n : Nat} (h : FirstClose ('/' :: '*' :: tail) n) :
    Block (('/' :: '*' :: tail).take (n + 2)) := by
  obtain ⟨k, rfl⟩ := Nat.exists_eq_add_of_le' h.behind
  obtain ⟨more, hmore⟩ : ['*', '/'] <+: tail.drop k := h.closes
  refine ⟨tail.take k, fun hi => ?_, ?_⟩
  · obtain ⟨j, hj, hc⟩ := ClosesAt.of_infix hi (List.take_prefix k tail)
    rw [List.length_take] at hj
    exact h.first (j + 2) (Nat.le_add_left 2 j) (by omega) hc
  · have hclose : (tail.drop k).take 2 = ['*', '/'] := by rw [← hmore]; rfl
    change '/' :: '*' :: tail.take (k + 2) = _
    rw [List.take_add, hclose]

/-- A comment that is never closed is all that is left. -/
theorem scanToClose_eq_self {cs : List Char} (h : ∀ n, ¬ ClosesAt cs n) : scanToClose cs = cs := by
  rcases scanToClose_cases cs with hs | ⟨body, -, hs⟩
  · exact hs
  · have hp := scanToClose_isPrefix cs
    rw [hs] at hp
    obtain ⟨n, -, hc⟩ := ClosesAt.of_infix (List.suffix_append body ['*', '/']).isInfix hp
    exact absurd hc (h n)

theorem Ahead.scan_eq {cs value : List Char} {kind : Token.Kind} (hc : cs.head? = some '/')
    (h : Ahead cs kind value) : scan cs = (kind, value) := by
  cases h with
  | line ho hv =>
    obtain ⟨tail, rfl⟩ := ho
    exact congrArg (Prod.mk Token.Kind.comment) hv.eq_scanLine
  | @block n ho hn =>
    obtain ⟨tail, ht⟩ := ho
    rw [← ht] at hn ⊢
    have hs := scan_append hn.block ((['/', '*'] ++ tail).drop (n + 2))
    exact (congrArg scan (List.take_append_drop (n + 2) _)).symm.trans hs
  | unclosed ho hn =>
    obtain ⟨tail, rfl⟩ := ho
    have hs : scanToClose tail = tail :=
      scanToClose_eq_self fun n => hn (n + 2) (Nat.le_add_left 2 n)
    exact congrArg (fun body => (Token.Kind.comment, '/' :: '*' :: body)) hs
  | slash hl hb =>
    obtain ⟨tail, rfl⟩ := List.head?_eq_some_iff.mp hc
    have hne (c : Char) (h : ¬ ['/', c] <+: '/' :: tail) : tail.head? ≠ some c := by
      intro ht
      obtain ⟨more, rfl⟩ := List.head?_eq_some_iff.mp ht
      exact h ⟨more, rfl⟩
    exact scan_text (hne _ hl) (hne _ hb)

theorem exists_ahead (cs : List Char) : ∃ kind value, Ahead cs kind value := by
  by_cases hl : ['/', '/'] <+: cs
  · exact ⟨_, _, .line hl (isLine_scanLine cs)⟩
  · by_cases hb : ['/', '*'] <+: cs
    · by_cases hn : ∃ n, 2 ≤ n ∧ ClosesAt cs n
      · classical
        obtain ⟨hbehind, hcloses⟩ := Nat.find_spec hn
        exact ⟨_, _, .block hb ⟨hbehind, hcloses, fun k hk hlt hc => Nat.find_min hn hlt ⟨hk, hc⟩⟩⟩
      · exact ⟨_, _, .unclosed hb fun n h2 hc => hn ⟨n, h2, hc⟩⟩
    · exact ⟨_, _, .slash hl hb⟩

end Comment

namespace Machine

/-- In front of a slash, reading a comment takes the one thing that stands there and hands it to the
innermost region. -/
theorem scanComment_exact (d : Delimiters) (m : Machine) (rest : List Char)
    (hr : m.cursor.rest = '/' :: rest) :
    ∃ kind value, Comment.Ahead m.cursor.rest kind value ∧
      (∀ kind' value', Comment.Ahead m.cursor.rest kind' value' → kind' = kind ∧ value' = value) ∧
      m.scanComment d = { machine := m.took d kind value } ∧
      m.cursor.rest = value ++ (m.scanComment d).machine.cursor.rest := by
  have hhead : m.cursor.rest.head? = some '/' := by
    rw [hr]
    rfl
  obtain ⟨kind, value, ha⟩ := Comment.exists_ahead m.cursor.rest
  have hs := ha.scan_eq hhead
  have hadmits := Comment.scan_admits rest
  have hp := Comment.scan_isPrefix m.cursor.rest
  rw [← hr, hs] at hadmits
  rw [hs] at hp
  have hscan : m.scanComment d = { machine := m.took d kind value } := by
    rw [← deliver_eq d m kind hadmits.ne_nil]
    simp only [scanComment, hs]
  refine ⟨kind, value, ha, fun kind' value' ha' => ?_, hscan, ?_⟩
  · exact Prod.mk.inj ((ha'.scan_eq hhead).symm.trans hs)
  · rw [hscan]
    exact Cursor.rest_eq_append_skip hp

/-- The star of the opening closes nothing, and a second opening inside is not counted. -/
theorem scanComment_exact_overlap :
    Machine.scanComment {} { cursor := .ofList "/*/*/*/".toList 1, top := { kind := .sheet } } =
      { machine := took {} { cursor := .ofList "/*/*/*/".toList 1, top := { kind := .sheet } }
          .comment ['/', '*', '/', '*', '/'] } := by
  obtain ⟨kind, value, -, honly, hscan, -⟩ := scanComment_exact {}
    { cursor := .ofList "/*/*/*/".toList 1, top := { kind := .sheet } } "*/*/*/".toList rfl
  have hfirst : Comment.FirstClose "/*/*/*/".toList 3 := by
    refine ⟨by decide, ⟨['*', '/'], rfl⟩, fun k hk hlt => ?_⟩
    obtain rfl : k = 2 := by omega
    unfold Comment.ClosesAt
    decide
  obtain ⟨rfl, rfl⟩ := honly .comment _ (.block ⟨"/*/*/".toList, rfl⟩ hfirst)
  exact hscan

end Machine
end InlineSheet
