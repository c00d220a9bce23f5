import InlineSheet.Proofs.Seam
import InlineSheet.Proofs.Variation

/-!
# Sources put together

Where a run has only the root open, the source can be cut: what lies before is a source of its own,
and so is what lies behind. Main statement: the two outputs make up that of the whole, or the
failure of the second part is that of the whole, as many lines further down as the first part has.
Both stylesheet delimiters have to have a character; an empty one would let a region open or close
at the cut itself.
-/
namespace InlineSheet

open Machine

/-- The end of the input can stand for any text. -/
theorem Delimiters.blends_nil (d : Delimiters) (rest : List Char) : d.Blends rest [] where
  line := fun _ => nofun
  slash := fun _ _ => ⟨nofun, nofun⟩
  ended := fun _ => rfl
  delimiter := by
    intro mark _ front _ hp
    rw [List.append_nil] at hp
    exact hp.trans (List.prefix_append front rest)

/-- A run on the part before the cut ends with what the root has gathered there. -/
theorem Machine.Reaches.outcome_before {d : Dialect} {a b : List Char} {line : Int} {m : Machine}
    (h : Reaches (begun d (a ++ b) line) m) (hopen : d.sheetOpen ≠ []) (hclose : d.sheetClose ≠ [])
    (hr : m.cursor.rest = b) (hk : m.top.kind = .root) :
    (begun d a line).run.outcome d = .ok m.top.content.toList := by
  have hpath := h.facing_begun (d.blends_nil b) (fun _ _ => ⟨hopen, hclose⟩) hr
  rw [List.append_nil] at hpath
  rw [Machine.run_eq (.inl hopen) (begun_nested d a line) hpath (.atEnd rfl)]
  change (m.facing []).result d = _
  have hrender : m.top.render d.toRuntime = m.top.content.toList := by
    simp only [Region.render, hk]
  rw [result, if_pos (show (m.facing []).top.kind = .root from hk)]
  exact congrArg Except.ok hrender

/-- Behind the cut the run goes on as one on the second part alone, with the first output in the
root. -/
theorem Machine.Reaches.variant_behind {d : Dialect} {a b : List Char} {line : Int} {m : Machine}
    (h : Reaches (begun d (a ++ b) line) m) (hr : m.cursor.rest = b) (hk : m.top.kind = .root) :
    Variant (Cursor.breaks a) (some []) [] m.top.content.toList [] m.outlines
      (begun d b line) m where
  rest := hr
  line := h.line_eq hr
  regions := by
    have hn := h.nested (begun_nested _ _ _)
    have hbelow := hn.below_eq_nil hk
    have hregion : Region.Variant (some []) [] m.top.content.toList (begun d b line).top m.top := by
      refine ⟨hk, hn.top_dialect, fun hroot => absurd rfl hroot, [], [], ?_, rfl, by simp⟩
      rintro known ⟨⟩
      exact ⟨rfl, rfl⟩
    refine ⟨[], rfl, (List.append_nil _).symm, ?_⟩
    rw [stack, stack, hbelow]
    exact .holder hregion []

/-- A source that is cut where only the root is open is worth what its parts are worth. -/
theorem Transpiler.run_append (d : Dialect) (hopen : d.sheetOpen ≠ []) (hclose : d.sheetClose ≠ [])
    (file : String) (line : Int) (a b : String) (m : Machine)
    (hm : Reaches (begun d (a ++ b).toList line) m) (hrest : m.cursor.rest = b.toList)
    (hroot : m.depth = 0) :
    ∃ output, (new d file line a).run.2 = .ok output ∧
      (new d file line (a ++ b)).run.2 =
        match (new d file line b).run.2 with
        | .ok more => .ok (output ++ more)
        | .error diagnostic =>
          .error (diagnostic.moved (Cursor.breaks a.toList) (Cursor.breaks a.toList)) := by
  rw [String.toList_append] at hm
  have hn := hm.nested (begun_nested _ _ _)
  have hk : m.top.kind = .root := by
    unfold stack at hn
    rw [List.length_eq_zero_iff.mp hroot] at hn
    exact hn.1
  have hbefore := (run_new d file line a).2
  rw [hm.outcome_before hopen hclose hrest hk] at hbefore
  refine ⟨_, hbefore, ?_⟩
  obtain ⟨_, -, -, hends⟩ := run_variant (.inl hopen) .refl hm (hm.variant_behind hrest hk) file
  rw [← String.toList_append, String.ofList_toList, String.ofList_toList] at hends
  rcases hends with ⟨front, back, hlead, hb, hab⟩ | ⟨diagnostic, hb, hab⟩
  · obtain rfl := hlead [] rfl
    rw [hb, hab]
    simp
  · rw [hb, hab]
    simp

/-- A line comment ends at the cut, and the second part fails. -/
theorem Transpiler.run_append_comment :
    ∃ m, Reaches (begun .standard ("<<x\n>>//<<" ++ "\n<<y").toList 1) m ∧
      m.cursor.rest = "\n<<y".toList ∧ m.depth = 0 ∧
      (new .standard "page" 1 ("<<x\n>>//<<" ++ "\n<<y")).run.2 =
        .error (.located (.unterminatedRegion "stylesheet expression" ">>" 3) (some 3)
          (some "page")) := by
  have hreach := reaches_runFor (n := 5)
    (begun_nested .standard ("<<x\n>>//<<" ++ "\n<<y").toList 1) (by decide +kernel)
  have hrest : ((begun .standard ("<<x\n>>//<<" ++ "\n<<y").toList 1).runFor
      5).machine.cursor.rest = "\n<<y".toList := by decide +kernel
  have hdepth : ((begun .standard ("<<x\n>>//<<" ++ "\n<<y").toList 1).runFor
      5).machine.depth = 0 := by decide +kernel
  have hbehind : (new .standard "page" 1 "\n<<y").run.2 =
      .error (.located (.unterminatedRegion "stylesheet expression" ">>" 2) (some 2)
        (some "page")) := by
    decide +kernel
  obtain ⟨_, -, hwhole⟩ := run_append .standard (by decide) (by decide) "page" 1 _ _ _ hreach
    hrest hdepth
  rw [hbehind] at hwhole
  exact ⟨_, hreach, hrest, hdepth, hwhole⟩

end InlineSheet
