import InlineSheet.Proofs.Trace

/-!
# Host text without a region

`lexemes` splits a text into literals, comments, blanks and single characters, by the rules that
hold in every region and with no regard to regions. Main statement: where no stylesheet opens at one
of the single characters, the source is given back as it is, unless the splitting meets a literal
that is not closed; then just that is reported. Inside literals and comments the opening delimiter
may stand anywhere, and the other delimiters may stand wherever they like.
-/
namespace InlineSheet

/-- The lexemes of a text in order, each with the text from it on. At a literal that is not closed
the splitting stops. -/
def lexemes (cs : List Char) : List (Lexeme × List Char) :=
  match _hl : lexeme cs with
  | .nothing => []
  | .token kind value => (.token kind value, cs) :: lexemes (cs.drop value.length)
  | .broken ending taken => [(.broken ending taken, cs)]
  | .plain c => (.plain c, cs) :: lexemes (cs.drop 1)
termination_by cs.length
decreasing_by
  · obtain ⟨hp, ha⟩ := admits_of_lexeme_token _hl
    have hle := hp.length_le
    have hpos := List.length_pos_iff.mpr ha.ne_nil
    rw [List.length_drop]
    omega
  · obtain ⟨rest, hr, -⟩ := cons_of_lexeme_plain _hl
    rw [hr]
    exact Nat.lt_succ_self _

/-- No stylesheet opens at a character that is left to the region. -/
def Delimiters.RegionFree (d : Delimiters) (source : List Char) : Prop :=
  ∀ c rest, (.plain c, rest) ∈ lexemes source → ¬ d.sheetOpen <+: rest

/-- The splitting meets a literal that is not closed. -/
def BreaksOff (source : List Char) : Prop :=
  ∃ ending taken rest, (.broken ending taken, rest) ∈ lexemes source

theorem lexemes_token {cs value : List Char} {kind : Token.Kind}
    (hl : lexeme cs = .token kind value) :
    lexemes cs = (.token kind value, cs) :: lexemes (cs.drop value.length) := by
  rw [lexemes]
  split <;> simp_all

theorem lexemes_broken {cs taken : List Char} {ending : Literal.Ending}
    (hl : lexeme cs = .broken ending taken) : lexemes cs = [(.broken ending taken, cs)] := by
  rw [lexemes]
  split <;> simp_all

theorem lexemes_plain {cs : List Char} {c : Char} (hl : lexeme cs = .plain c) :
    lexemes cs = (.plain c, cs) :: lexemes (cs.drop 1) := by
  rw [lexemes]
  split <;> simp_all

theorem lexemes_nil : lexemes [] = [] := by
  rw [lexemes]
  rfl

namespace Machine

/-- The machine has met no region: it has written in the root what it has read, and no literal so
far was left open. -/
structure Verbatim (source : List Char) (m : Machine) : Prop where
  root : m.top.kind = .root
  written : m.top.content.toList ++ m.cursor.rest = source
  split : ∃ passed, lexemes source = passed ++ lexemes m.cursor.rest ∧
    ∀ ending taken rest, (.broken ending taken, rest) ∉ passed

theorem verbatim_begun (d : Dialect) (source : List Char) (line : Int) :
    Verbatim source (begun d source line) where
  root := rfl
  written := rfl
  split := ⟨[], rfl, by simp⟩

theorem Verbatim.mem_lexemes {source : List Char} {m : Machine} (h : Verbatim source m)
    {p : Lexeme × List Char} (hp : p ∈ lexemes m.cursor.rest) : p ∈ lexemes source := by
  obtain ⟨passed, hsplit, -⟩ := h.split
  rw [hsplit]
  exact List.mem_append_right passed hp

/-- A token handed to the root is written as it is. -/
theorem Verbatim.took {d : Delimiters} {source : List Char} {m : Machine} (h : Verbatim source m)
    {kind : Token.Kind} {value : List Char} (hv : value <+: m.cursor.rest) {l : Lexeme}
    (hl : ∀ ending taken, l ≠ .broken ending taken)
    (hsplit : lexemes m.cursor.rest =
      (l, m.cursor.rest) :: lexemes (m.cursor.rest.drop value.length)) :
    Verbatim source (m.took d kind value) where
  root := (Region.accept_kind _ _ _).trans h.root
  written := by
    have hadded : m.top.added { kind, value, line := m.cursor.line } = value := by
      simp only [Region.added, h.root]
    change (m.top.accept d _).content.toList ++ (m.cursor.skip value.length).rest = source
    rw [Region.accept_toList, hadded, List.append_assoc, ← Cursor.rest_eq_append_skip hv]
    exact h.written
  split := by
    obtain ⟨passed, hpassed, hopen⟩ := h.split
    refine ⟨passed ++ [(l, m.cursor.rest)], ?_, ?_⟩
    · rw [hpassed, hsplit, List.append_assoc]
      rfl
    · intro ending taken rest hmem
      rcases List.mem_append.mp hmem with hmem | hmem
      · exact hopen ending taken rest hmem
      · have he := List.mem_singleton.mp hmem
        exact hl ending taken (congrArg Prod.fst he).symm

theorem Move.verbatim {d : Dialect} {source : List Char} {m m' : Machine} (hm : Move d m m')
    (hfree : d.RegionFree source) (h : Verbatim source m) : Verbatim source m' := by
  cases hm with
  | token kind value hl =>
    have hv := (admits_of_lexeme_token hl).1
    exact h.took hv (fun _ _ => Lexeme.noConfusion) (lexemes_token hl)
  | enter c hl ho =>
    rw [Region.childOpener, h.root] at ho
    have hmem : (.plain c, m.cursor.rest) ∈ lexemes m.cursor.rest := by
      rw [lexemes_plain hl]
      exact List.mem_cons_self
    exact absurd (List.isPrefixOf_iff_prefix.mp ho) (hfree c _ (h.mem_lexemes hmem))
  | leave c hl ho he parent below hb => exact absurd h.root he.1
  | text c hl ho he =>
    obtain ⟨rest, hr, -⟩ := cons_of_lexeme_plain hl
    exact h.took ⟨rest, hr.symm⟩ (fun _ _ => Lexeme.noConfusion) (lexemes_plain hl)

/-- A run that meets no region gives its source back, or stops at a literal that is not closed. -/
theorem outcome_of_regionFree {d : Dialect} (hd : d.Progressive) {source : List Char}
    (hfree : d.RegionFree source) (line : Int) :
    (¬ BreaksOff source ∧ (begun d source line).run.outcome d = .ok source) ∨
    (BreaksOff source ∧ ∃ ending line',
      (begun d source line).run.outcome d = .error (Literal.Ending.failure line' ending)) := by
  obtain ⟨m, hp, hs⟩ := run_stops hd (begun_nested d source line)
  obtain ⟨hn, hm⟩ := hp.induct (begun_nested d source line) (verbatim_begun d source line)
    fun _ _ _ hm h => hm.verbatim hfree h
  by_cases hr : m.cursor.rest = []
  · left
    obtain ⟨passed, hsplit, hopen⟩ := hm.split
    have hwritten := hm.written
    rw [hr, lexemes_nil, List.append_nil] at hsplit
    rw [hr, List.append_nil] at hwritten
    constructor
    · rintro ⟨ending, taken, rest, hmem⟩
      rw [hsplit] at hmem
      exact hopen ending taken rest hmem
    · have hrender : m.top.render d.toRuntime = source := by
        simp only [Region.render, hm.root, hwritten]
      rw [hs.unique (.atEnd hr)]
      change m.result d = .ok source
      rw [result, if_pos hm.root, hrender]
  · right
    obtain ⟨ending, taken, hl, hb⟩ := hs.broken hn hr
    have hmem : (.broken ending taken, m.cursor.rest) ∈ lexemes m.cursor.rest := by
      rw [lexemes_broken hl]
      exact List.mem_cons_self
    refine ⟨⟨ending, taken, _, hm.mem_lexemes hmem⟩, ending,
      (m.cursor.skip taken.length).line, ?_⟩
    rw [hb]
    rfl

end Machine

/-- Host text is given back as it is. -/
theorem transpile_of_regionFree (d : Dialect) (hopen : d.sheetOpen ≠ []) (file source : String)
    (hfree : d.RegionFree source.toList) :
    (¬ BreaksOff source.toList → transpile d file source = .ok source) ∧
    (BreaksOff source.toList → ∃ diagnostic, transpile d file source = .error diagnostic ∧
      diagnostic.category? = some .unterminatedString) ∧
    ∀ diagnostic, transpile d file source = .error diagnostic →
      diagnostic.category? ≠ some .unterminatedRegion := by
  have hanswer := (Transpiler.run_new d file 1 source).2
  rcases Machine.outcome_of_regionFree (.inl hopen) hfree 1 with ⟨hb, ho⟩ | ⟨hb, ending, line, ho⟩
  · have hok : transpile d file source = .ok source := by
      rw [transpile, hanswer, ho, Transpiler.answer, String.ofList_toList]
    refine ⟨fun _ => hok, fun h => absurd h hb, ?_⟩
    intro diagnostic herror
    rw [hok] at herror
    cases herror
  · have herr : transpile d file source =
        .error ((ending.failure line).report d.toDelimiters file) := by
      rw [transpile, hanswer, ho, Transpiler.answer]
    have hcat := Failure.category?_report_ending d.toDelimiters file line ending
    refine ⟨fun h => absurd hb h, fun _ => ⟨_, herr, hcat⟩, ?_⟩
    intro diagnostic herror
    rw [herr] at herror
    cases herror
    rw [hcat]
    decide

/-- An opening delimiter in a literal and one in a comment open nothing. -/
theorem transpile_of_regionFree_hidden :
    Dialect.standard.sheetOpen ≠ [] ∧
    Dialect.standard.RegionFree "'<<' /*<<*/]".toList ∧
    transpile .standard "page" "'<<' /*<<*/]" = .ok "'<<' /*<<*/]" := by
  have hlexemes : lexemes "'<<' /*<<*/]".toList =
      [(.token .string "'<<'".toList, "'<<' /*<<*/]".toList),
        (.token .whitespace [' '], " /*<<*/]".toList),
        (.token .comment "/*<<*/".toList, "/*<<*/]".toList), (.plain ']', [']'])] := by
    decide +kernel
  have hfree : Dialect.standard.RegionFree "'<<' /*<<*/]".toList := by
    intro c rest hmem
    rw [hlexemes] at hmem
    simp only [List.mem_cons, Prod.mk.injEq, reduceCtorEq, false_and, false_or, List.not_mem_nil,
      or_false] at hmem
    rw [hmem.2]
    decide
  have hwhole : ¬ BreaksOff "'<<' /*<<*/]".toList := by
    rintro ⟨ending, taken, rest, hmem⟩
    rw [hlexemes] at hmem
    simp at hmem
  have hopen : Dialect.standard.sheetOpen ≠ [] := by decide
  exact ⟨hopen, hfree, (transpile_of_regionFree .standard hopen "page" _ hfree).1 hwhole⟩

end InlineSheet
