import InlineSheet.Proofs.Loop

/-!
# The loops come to an end

`Machine.HaltsIn` counts the rounds of the reading loop, and `ScanLoop.EndsIn` the turns of the
loops inside a round, which read literals and comments. Neither knows a limit. Main statement: where
some stylesheet delimiter has a character, the reading loop makes at most two rounds for each
character of the source, and a loop inside a round makes at most one turn for each character in
front of it.
-/
namespace InlineSheet

/-- A loop over a text. -/
structure ScanLoop where
  /-- How many characters the next turn passes over, if there is a next turn. -/
  turn : List Char → Option Nat
  /-- What is taken in addition where the loop has come to its end. -/
  finish : List Char → List Char

namespace ScanLoop

/-- The loop makes `n` turns and comes to its end in front of `rest`. -/
inductive EndsIn (loop : ScanLoop) : Nat → List Char → List Char → Prop
  | over {cs : List Char} (h : loop.turn cs = none) : EndsIn loop 0 cs cs
  | again {n k : Nat} {cs rest : List Char} (h : loop.turn cs = some k)
      (hr : EndsIn loop n (cs.drop k) rest) : EndsIn loop (n + 1) cs rest

/-- The loop comes to an end, within one turn for each character, and `value` is what it has then
read. -/
def Reads (loop : ScanLoop) (cs value : List Char) : Prop :=
  ∃ n, n ≤ cs.length ∧ ∃ passed rest, cs = passed ++ rest ∧ loop.EndsIn n cs rest ∧
    value = passed ++ loop.finish rest

theorem Reads.over {loop : ScanLoop} {cs : List Char} (h : loop.turn cs = none) :
    loop.Reads cs (loop.finish cs) :=
  ⟨0, Nat.zero_le _, [], cs, rfl, .over h, rfl⟩

/-- A turn has to pass over something, and there has to be something. -/
theorem Reads.again {loop : ScanLoop} {k : Nat} {cs value : List Char}
    (h : loop.turn cs = some k) (hk : 0 < k) (hcs : cs ≠ []) (hr : loop.Reads (cs.drop k) value) :
    loop.Reads cs (cs.take k ++ value) := by
  obtain ⟨n, hn, passed, rest, hsplit, hends, hvalue⟩ := hr
  have hpos : 0 < cs.length := List.length_pos_iff.mpr hcs
  have hlen : n + 1 ≤ cs.length := by
    rw [List.length_drop] at hn
    omega
  refine ⟨n + 1, hlen, cs.take k ++ passed, rest, ?_, .again h hends, ?_⟩
  · rw [List.append_assoc, ← hsplit, List.take_append_drop]
  · rw [hvalue, List.append_assoc]

end ScanLoop

namespace Literal

/-- Looks for the closing quote. A backslash takes two characters, or the one that is left. -/
def closingLoop (quote : Char) : ScanLoop where
  turn
    | [] => none
    | c :: _ =>
      if c = quote then none
      else if c = '\\' then some 2
      else if c = '\n' ∧ quote ≠ multiLineQuote then none
      else some 1
  finish
    | [] => []
    | c :: _ => if c = quote then [c] else []

theorem closingLoop_reads (quote : Char) (cs : List Char) :
    (closingLoop quote).Reads cs (scanBody quote cs).2 := by
  induction cs using scanBody.induct quote with
  | case1 => exact .over rfl
  | case2 rest =>
    have hturn : (closingLoop quote).turn (quote :: rest) = none := by simp [closingLoop]
    have hfinish : (closingLoop quote).finish (quote :: rest) = [quote] := by simp [closingLoop]
    rw [scanBody_quote, ← hfinish]
    exact .over hturn
  | case3 hq =>
    have hturn : (closingLoop quote).turn ['\\'] = some 2 := by simp [closingLoop, hq]
    have hvalue : (scanBody quote ['\\']).2 = ['\\'] := by simp [scanBody, hq]
    rw [hvalue]
    exact .again hturn Nat.two_pos (List.cons_ne_nil _ _) (.over rfl)
  | case4 c rest _ _ _ hq ih =>
    have hturn : (closingLoop quote).turn ('\\' :: c :: rest) = some 2 := by
      simp [closingLoop, hq]
    rw [scanBody_escaped (Ne.symm hq)]
    exact .again hturn Nat.two_pos (List.cons_ne_nil _ _) ih
  | case5 c rest hq hb hl =>
    have hturn : (closingLoop quote).turn (c :: rest) = none := by
      simp only [closingLoop, if_neg hq, if_neg hb, if_pos hl]
    have hvalue : (scanBody quote (c :: rest)).2 = (closingLoop quote).finish (c :: rest) := by
      rw [scanBody.eq_def]
      simp only [closingLoop, if_neg hq, if_neg hb, if_pos hl]
    rw [hvalue]
    exact .over hturn
  | case6 c rest hq hb hl _ _ _ ih =>
    have hturn : (closingLoop quote).turn (c :: rest) = some 1 := by
      simp only [closingLoop, if_neg hq, if_neg hb, if_neg hl]
    have hn : c = '\n' → quote = multiLineQuote := fun hc =>
      Decidable.byContradiction fun hm => hl ⟨hc, hm⟩
    rw [scanBody_bare hq hb hn]
    exact .again hturn Nat.one_pos (List.cons_ne_nil _ _) ih

end Literal

namespace Comment

/-- Looks for the end of the line. -/
def lineLoop : ScanLoop where
  turn
    | [] => none
    | c :: _ => if c = '\n' then none else some 1
  finish _ := []

/-- Looks for a star and a slash. They are taken in addition, or what is left of the text. -/
def closeLoop : ScanLoop where
  turn
    | [] => none
    | cs => if cs.take 2 = ['*', '/'] then none else some 1
  finish cs := cs.take 2

theorem lineLoop_reads (cs : List Char) : lineLoop.Reads cs (scanLine cs) := by
  induction cs with
  | nil => exact .over rfl
  | cons c cs ih =>
    by_cases hc : c = '\n'
    · have hturn : lineLoop.turn (c :: cs) = none := by simp only [lineLoop, if_pos hc]
      have hvalue : scanLine (c :: cs) = [] := by simp [scanLine, hc]
      rw [hvalue]
      exact .over hturn
    · have hturn : lineLoop.turn (c :: cs) = some 1 := by simp only [lineLoop, if_neg hc]
      have hvalue : scanLine (c :: cs) = c :: scanLine cs := by simp [scanLine, hc]
      rw [hvalue]
      exact .again hturn Nat.one_pos (List.cons_ne_nil _ _) ih

theorem closeLoop_reads (cs : List Char) : closeLoop.Reads cs (scanToClose cs) := by
  induction cs with
  | nil => exact .over rfl
  | cons c cs ih =>
    have hhead : (c :: cs).take 2 = ['*', '/'] ↔ c = '*' ∧ cs.head? = some '/' := by
      cases cs <;> simp
    rw [scanToClose_cons]
    by_cases hc : c = '*' ∧ cs.head? = some '/'
    · have hturn : closeLoop.turn (c :: cs) = none := by
        simp only [closeLoop, if_pos (hhead.mpr hc)]
      rw [if_pos hc, ← hhead.mpr hc]
      exact .over hturn
    · have hturn : closeLoop.turn (c :: cs) = some 1 := by
        simp only [closeLoop, if_neg fun h => hc (hhead.mp h)]
      rw [if_neg hc]
      exact .again hturn Nat.one_pos (List.cons_ne_nil _ _) ih

end Comment

namespace Machine

/-- The loop makes `n` rounds and then is over: the input is read, or the last round has failed. -/
inductive HaltsIn : Nat → Machine → Progress → Prop
  | atEnd {m : Machine} (h : m.cursor.rest = []) : HaltsIn 0 m { machine := m }
  | failed {m : Machine} (h : m.cursor.rest ≠ []) (hf : (m.step m.top.dialect).failure ≠ none) :
      HaltsIn 1 m (m.step m.top.dialect)
  | round {n : Nat} {m m' : Machine} {p : Progress} (hg : Goes m m') (h : HaltsIn n m' p) :
      HaltsIn (n + 1) m p

theorem ReachesIn.haltsIn {n k : Nat} {m m' : Machine} {p : Progress}
    (h : ReachesIn n m m') (hs : HaltsIn k m' p) : HaltsIn (n + k) m p := by
  induction h with
  | refl =>
    rw [Nat.zero_add]
    exact hs
  | head hg _ ih =>
    rw [Nat.add_right_comm]
    exact .round hg (ih hs)

/-- The last round is paid for too: where it fails, there is input left. -/
theorem Stops.exists_haltsIn {m : Machine} {p : Progress} (hs : Stops m p) (d : Delimiters) :
    ∃ k, k ≤ m.weight d ∧ HaltsIn k m p := by
  cases hs with
  | atEnd h => exact ⟨0, Nat.zero_le _, .atEnd h⟩
  | failed h hf => exact ⟨1, weight_pos h, .failed h hf⟩

/-- No source keeps a transpiler busy: its reading loop makes at most two rounds for each character,
and every loop in a round reads what the scanners say within one turn for each character. -/
theorem exists_haltsIn_run (d : Dialect) (hd : d.Progressive) (source : List Char) (line : Int) :
    (∃ n, n ≤ 2 * source.length ∧
      HaltsIn n (begun d source line) (begun d source line).run) ∧
    (∀ quote cs, (Literal.closingLoop quote).Reads cs (Literal.scanBody quote cs).2) ∧
    (∀ cs, Comment.lineLoop.Reads cs (Comment.scanLine cs)) ∧
    ∀ cs, Comment.closeLoop.Reads cs (Comment.scanToClose cs) := by
  refine ⟨?_, Literal.closingLoop_reads, Comment.lineLoop_reads, Comment.closeLoop_reads⟩
  have hn := begun_nested d source line
  obtain ⟨n, m, hp, hs⟩ := run_stopsIn hd hn
  obtain ⟨k, hk, hh⟩ := hs.exists_haltsIn d.toDelimiters
  have hle := hp.weight_le hd hn
  have hw : (begun d source line).weight d.toDelimiters ≤ 2 * source.length :=
    weight_le d.toDelimiters (begun d source line)
  exact ⟨n + k, by omega, hp.haltsIn hh⟩

/-- With an empty opening delimiter a round in the root takes no input, and the next one does. -/
theorem exists_haltsIn_run_empty_opener :
    ({ sheetOpen := [], sheetClose := ['x'] } : Dialect).Progressive ∧
    ∃ n, n ≤ 4 ∧ HaltsIn n (begun { sheetOpen := [], sheetClose := ['x'] } ['x', 'x'] 1)
      (begun { sheetOpen := [], sheetClose := ['x'] } ['x', 'x'] 1).run :=
  ⟨by decide, (exists_haltsIn_run _ (by decide) ['x', 'x'] 1).1⟩

end Machine
end InlineSheet
