import InlineSheet.Proofs.Variation

/-!
# The names of the runtime

A region gathers the calls that emitted code makes along with its other text, looks at the last
character of what it has gathered, and in the end takes blanks off it. A `Template` is such a text
before the names are known: characters, and slots for the two calls. A `Region.Sketch` is a region
with a template in place of its text. No call stands at the end of a template, and none of a
stylesheet comes to the front when blanks are taken off (`Template.Shielded`), so that nothing a
region does depends on the names. Main statement: whatever the names are, runs on one source make
the same rounds and report the same, and their outputs are one template with the names filled in.
-/
namespace InlineSheet

/-- A character of emitted text, or a call whose name is not known yet. -/
inductive Slot where
  | char (c : Char)
  | evaluate
  | expression
  deriving DecidableEq

def Slot.isBlank : Slot → Bool
  | .char c => Text.isBlank c
  | _ => false

def Slot.fill (names : Runtime) : Slot → List Char
  | .char c => [c]
  | .evaluate => names.evaluateCall
  | .expression => names.expressionCall

abbrev Template := List Slot

namespace Template

def fill (names : Runtime) (t : Template) : List Char := t.flatMap (Slot.fill names)

/-- The template of a text that makes no call. -/
def text (cs : List Char) : Template := cs.map .char

/-- The template without the blanks at its two ends. -/
def trim (t : Template) : Template :=
  ((t.dropWhile Slot.isBlank).reverse.dropWhile Slot.isBlank).reverse

/-- A character that is not blank comes before the first call, or there is no call. -/
def Shielded : Template → Prop
  | [] => True
  | .char c :: t => Text.isBlank c = false ∨ Shielded t
  | .evaluate :: _ => False
  | .expression :: _ => False

variable {t t' : Template}

theorem fill_text (names : Runtime) (cs : List Char) : fill names (text cs) = cs := by
  induction cs with
  | nil => rfl
  | cons c cs ih => exact congrArg (c :: ·) ih

theorem fill_append (names : Runtime) (t t' : Template) :
    fill names (t ++ t') = fill names t ++ fill names t' := List.flatMap_append

theorem shielded_text (cs : List Char) : Shielded (text cs) := by
  induction cs with
  | nil => trivial
  | cons c cs ih => exact .inr ih

theorem Shielded.append (h : Shielded t) (h' : Shielded t') : Shielded (t ++ t') := by
  induction t with
  | nil => exact h'
  | cons s t ih =>
    cases s with
    | char c => exact h.imp_right ih
    | evaluate | expression => exact h.elim

theorem Shielded.of_append (h : Shielded (t ++ t')) : Shielded t := by
  induction t with
  | nil => trivial
  | cons s t ih =>
    cases s with
    | char c => exact h.imp_right ih
    | evaluate | expression => exact h.elim

/-- Blanks can be taken off before the names are filled in or afterwards. -/
theorem Shielded.dropWhile_flatMap (h : Shielded t) {f : Slot → List Char}
    (hf : ∀ c, f (.char c) = [c]) :
    (t.flatMap f).dropWhile Text.isBlank = (t.dropWhile Slot.isBlank).flatMap f := by
  induction t with
  | nil => rfl
  | cons s t ih =>
    cases s with
    | char c =>
      by_cases hc : Text.isBlank c = true
      · have hrest := ih (h.resolve_left (by simp [hc]))
        simp [hf, Slot.isBlank, hc, hrest]
      · simp [hf, Slot.isBlank, hc]
    | evaluate | expression => exact h.elim

theorem Shielded.fill_trim (h : Shielded t) (h' : Shielded t.reverse) (names : Runtime) :
    fill names (trim t) = Text.trim (fill names t) := by
  have hrest : Shielded (t.dropWhile Slot.isBlank).reverse := by
    rw [← List.takeWhile_append_dropWhile (p := Slot.isBlank) (l := t), List.reverse_append] at h'
    exact h'.of_append
  -- The back is the front of a text in which each slot is filled in reversed.
  have hback : (List.reverse ∘ List.reverse ∘ Slot.fill names) = Slot.fill names := by
    funext s
    exact List.reverse_reverse _
  have hfill : ∀ c, Slot.fill names (.char c) = [c] := fun _ => rfl
  rw [Text.trim, fill, fill, h.dropWhile_flatMap hfill, List.reverse_flatMap,
    hrest.dropWhile_flatMap (fun _ => rfl), List.reverse_flatMap, hback]
  rfl

/-- Whether a template that is shielded at its end ends in a space does not depend on the names. -/
theorem Shielded.getLast?_fill (h : Shielded t.reverse) (names : Runtime) :
    (fill names t).getLast? = some ' ' ↔ t.getLast? = some (.char ' ') := by
  rw [← List.reverse_reverse t]
  generalize t.reverse = back at h ⊢
  cases back with
  | nil => simp [fill]
  | cons s back =>
    cases s with
    | char c => simp [fill, Slot.fill]
    | evaluate | expression => exact h.elim

end Template

/-- A region before the names are known. -/
structure Region.Sketch where
  kind : Region.Kind
  startLine : Int
  template : Template
  openBrackets : Int
  /-- The text ends in a character, and no call shows when blanks are taken off there. -/
  closes : Template.Shielded template.reverse
  /-- Nor does one show in front, where a stylesheet has blanks taken off as well. -/
  opens : kind = .sheet → Template.Shielded template

namespace Region.Sketch

/-- The region of a dialect, with its names. -/
def fill (d : Dialect) (s : Sketch) : Region where
  kind := s.kind
  startLine := s.startLine
  content := ({} : Buffer).append (s.template.fill d.toRuntime)
  openBrackets := s.openBrackets
  dialect := d

theorem fill_toList (d : Dialect) (s : Sketch) :
    (s.fill d).content.toList = s.template.fill d.toRuntime := by
  simp [fill]

def write (s : Sketch) (t : Template) (hback : Template.Shielded t.reverse)
    (hfront : s.kind = .sheet → Template.Shielded t) : Sketch :=
  { s with
    template := s.template ++ t
    closes := by
      rw [List.reverse_append]
      exact hback.append s.closes
    opens := fun hk => (s.opens hk).append (hfront hk) }

theorem fill_write (d : Dialect) (s : Sketch) (t : Template)
    (hback : Template.Shielded t.reverse) (hfront : s.kind = .sheet → Template.Shielded t) :
    (s.write t hback hfront).fill d = (s.fill d).write (t.fill d.toRuntime) := by
  have hcontent : ((s.write t hback hfront).fill d).content =
      ((s.fill d).write (t.fill d.toRuntime)).content := by
    apply Buffer.ext
    rw [fill_toList, write_toList, fill_toList]
    exact Template.fill_append d.toRuntime s.template t
  exact congrArg (fun content => { s.fill d with content }) hcontent

/-- A text without calls can be written before the names are known. -/
theorem exists_write_text (s : Sketch) (cs : List Char) :
    ∃ s' : Sketch, ∀ d, s'.fill d = (s.fill d).write cs := by
  have hback : Template.Shielded (Template.text cs).reverse := by
    rw [Template.text, ← List.map_reverse]
    exact Template.shielded_text cs.reverse
  refine ⟨s.write (.text cs) hback fun _ => Template.shielded_text cs, fun d => ?_⟩
  rw [fill_write, Template.fill_text]

theorem exists_writeSpace (s : Sketch) :
    ∃ s' : Sketch, ∀ d, s'.fill d = (s.fill d).writeSpace := by
  have hlast (d : Dialect) :
      (s.fill d).content.last? = some ' ' ↔ s.template.getLast? = some (.char ' ') := by
    rw [Buffer.last?_eq_getLast?, fill_toList]
    exact s.closes.getLast?_fill d.toRuntime
  by_cases hspace : s.template.getLast? = some (.char ' ')
  · refine ⟨s, fun d => ?_⟩
    rw [writeSpace, if_pos ((hlast d).mpr hspace)]
  · obtain ⟨s', hs'⟩ := s.exists_write_text [' ']
    refine ⟨s', fun d => ?_⟩
    rw [hs', writeSpace, if_neg (mt (hlast d).mp hspace)]

/-- What a region does with a token does not depend on the names. -/
theorem exists_accept (δ : Delimiters) (s : Sketch) (t : Token) :
    ∃ s' : Sketch, ∀ d, s'.fill d = (s.fill d).accept δ t := by
  have hkind (d : Dialect) : (s.fill d).kind = s.kind := rfl
  cases hk : s.kind with
  | root => simpa only [accept, hkind, hk] using s.exists_write_text t.value
  | sheet =>
    cases ht : t.kind with
    | comment => exact ⟨s, fun d => by simp only [accept, hkind, hk, ht]⟩
    | whitespace => simpa only [accept, hkind, hk, ht] using s.exists_writeSpace
    | string => simpa only [accept, hkind, hk, ht] using s.exists_write_text (sheetLiteral t.value)
    | text => simpa only [accept, hkind, hk, ht] using s.exists_write_text t.value
  | expr =>
    cases ht : t.kind with
    | comment => exact ⟨s, fun d => by simp only [accept, hkind, hk, ht]⟩
    | whitespace => simpa only [accept, hkind, hk, ht] using s.exists_writeSpace
    | string => simpa only [accept, hkind, hk, ht] using s.exists_write_text t.value
    | text =>
      obtain ⟨s', hs'⟩ := s.exists_write_text t.value
      refine ⟨{ s' with openBrackets := (s.fill .standard).bracketsAfter δ t.value }, fun d => ?_⟩
      simp only [accept, hkind, hk, ht, ← hs']
      rfl

/-- What the region is worth to the one around it, before the names are known. -/
def render (s : Sketch) : Template :=
  match s.kind with
  | .root => s.template
  | .sheet => Template.text ['\''] ++ s.template.trim ++ Template.text ['\'']
  | .expr =>
    Template.text "' + ".toList ++ [.expression] ++ Template.text ['('] ++ s.template ++
      Template.text ") + '".toList

theorem fill_render (d : Dialect) (s : Sketch) :
    s.render.fill d.toRuntime = (s.fill d).render d.toRuntime := by
  have hkind : (s.fill d).kind = s.kind := rfl
  have hcall : Template.fill d.toRuntime [.expression] = d.expressionCall := List.append_nil _
  cases hk : s.kind with
  | root => simp only [render, Region.render, hkind, hk, fill_toList]
  | sheet =>
    simp only [render, Region.render, hkind, hk, fill_toList, Template.fill_append,
      Template.fill_text, (s.opens hk).fill_trim s.closes]
  | expr =>
    simp only [render, Region.render, hkind, hk, fill_toList, Template.fill_append,
      Template.fill_text, hcall]

/-- A region that closes is worth a text with a quote at each end. -/
theorem shielded_render (s : Sketch) (hk : s.kind ≠ .root) :
    s.render.Shielded ∧ Template.Shielded s.render.reverse := by
  have hquote : Text.isBlank '\'' = false := by decide
  cases hs : s.kind with
  | root => exact absurd hs hk
  | sheet | expr =>
    simp only [render, hs]
    refine ⟨Or.inl hquote, ?_⟩
    rw [List.reverse_append]
    exact Or.inl hquote

/-- A region is folded into the one around it before the names are known. -/
theorem exists_fold_render (parent s : Sketch) (hs : s.kind ≠ .root) :
    ∃ s' : Sketch, ∀ d,
      s'.fill d = (parent.fill d).fold d.toRuntime ((s.fill d).render d.toRuntime) := by
  obtain ⟨hfront, hback⟩ := s.shielded_render hs
  have hkind (d : Dialect) : (parent.fill d).kind = parent.kind := rfl
  have hname (names : Runtime) : Template.fill names [.evaluate] = names.evaluateCall :=
    List.append_nil _
  have hend : Template.Shielded (([Slot.evaluate] ++ Template.text ['('] ++ s.render ++
      Template.text [')'] : Template).reverse) := by
    rw [List.reverse_append]
    exact Or.inl (by decide)
  cases hk : parent.kind with
  | sheet =>
    refine ⟨parent.write s.render hback fun _ => hfront, fun d => ?_⟩
    simp only [fold, hkind, hk, fill_write, fill_render]
  | root | expr =>
    refine ⟨parent.write _ hend fun h => ?_, fun d => ?_⟩
    · rw [hk] at h
      cases h
    · simp only [fold, hkind, hk, fill_write, Template.fill_append, Template.fill_text, hname,
        fill_render]

end Region.Sketch

/-- What a region is but for its text. -/
def Region.frame (r : Region) : Region.Kind × Int × Int := (r.kind, r.startLine, r.openBrackets)

/-- The event without the dialect of its region, and without what a closed region had gathered. -/
def Event.bare : Event → Event
  | .token receiver t => .token receiver t
  | .opened child depth => .opened { child with dialect := .standard } depth
  | .closed child line => .closed { child with content := {}, dialect := .standard } line

theorem Event.token?_bare (e : Event) : e.bare.token? = e.token? := by
  cases e <;> rfl

theorem Event.message?_bare (file : String) (e : Event) :
    e.bare.message? file = e.message? file := by
  cases e <;> rfl

/-- The dialect with these names. -/
def Delimiters.naming (δ : Delimiters) (names : Runtime) : Dialect :=
  { toDelimiters := δ, toRuntime := names }

theorem Delimiters.naming_toRuntime {δ : Delimiters} {d : Dialect} (h : d.toDelimiters = δ) :
    δ.naming d.toRuntime = d := by
  subst h
  rfl

namespace Machine

/-- Machines, one for each choice of names, that differ in the names only. -/
structure Sketched (δ : Delimiters) (F : Runtime → Machine) : Prop where
  cursor : ∃ c, ∀ names, (F names).cursor = c
  regions : ∃ (s : Region.Sketch) (below : List Region.Sketch), ∀ names,
    (F names).top = s.fill (δ.naming names) ∧
      (F names).below = below.map (·.fill (δ.naming names))
  trace : ∃ es, ∀ names, (F names).trace.toList.map Event.bare = es

namespace Sketched

variable {δ : Delimiters} {F : Runtime → Machine}

theorem begun (δ : Delimiters) (source : List Char) (line : Int) :
    Sketched δ fun names => begun (δ.naming names) source line where
  cursor := ⟨_, fun _ => rfl⟩
  regions := ⟨⟨.root, line, [], 0, trivial, fun _ => trivial⟩, [], fun _ => ⟨rfl, rfl⟩⟩
  trace := ⟨_, fun _ => rfl⟩

theorem inStep (h : Sketched δ F) (names names' : Runtime) : InStep (F names) (F names') := by
  obtain ⟨c, hc⟩ := h.cursor
  obtain ⟨s, below, hs⟩ := h.regions
  obtain ⟨htop, hbelow⟩ := hs names
  obtain ⟨htop', hbelow'⟩ := hs names'
  refine ⟨?_, ?_, ?_, ?_⟩
  · rw [hc, hc]
  · rw [htop, htop']
    rfl
  · rw [htop, htop']
    exact fun _ => rfl
  · simp only [depth, hbelow, hbelow', List.length_map]

theorem frames (h : Sketched δ F) (names names' : Runtime) :
    (F names').stack.map Region.frame = (F names).stack.map Region.frame := by
  obtain ⟨s, below, hs⟩ := h.regions
  obtain ⟨htop, hbelow⟩ := hs names
  obtain ⟨htop', hbelow'⟩ := hs names'
  simp only [stack, htop, htop', hbelow, hbelow', List.map_cons, List.map_map]
  rfl

theorem push (h : ∃ es, ∀ names, (F names).trace.toList.map Event.bare = es) {G : Runtime → Machine}
    {e : Runtime → Event} (hG : ∀ names, (G names).trace = (F names).trace.push (e names))
    (he : ∃ e', ∀ names, (e names).bare = e') :
    ∃ es, ∀ names, (G names).trace.toList.map Event.bare = es := by
  obtain ⟨es, hes⟩ := h
  obtain ⟨e', he'⟩ := he
  refine ⟨es ++ [e'], fun names => ?_⟩
  rw [hG, Array.toList_push, List.map_append, hes, List.map_singleton, he']

theorem took (h : Sketched δ F) (kind : Token.Kind) (value : List Char) :
    Sketched δ fun names => (F names).took δ kind value := by
  obtain ⟨c, hc⟩ := h.cursor
  obtain ⟨s, below, hs⟩ := h.regions
  obtain ⟨s', hs'⟩ := s.exists_accept δ { kind, value, line := c.line }
  refine ⟨⟨c.skip value.length, fun names => ?_⟩, ⟨s', below, fun names => ⟨?_, (hs names).2⟩⟩, ?_⟩
  · rw [Machine.took, hc]
  · rw [Machine.took, hc, (hs names).1, hs']
  · refine push h.trace (fun names => rfl) ⟨.token s.kind { kind, value, line := c.line }, ?_⟩
    intro names
    rw [hc, (hs names).1]
    rfl

theorem entered (h : Sketched δ F) : Sketched δ fun names => (F names).entered δ := by
  obtain ⟨c, hc⟩ := h.cursor
  obtain ⟨s, below, hs⟩ := h.regions
  have hopener (names : Runtime) : (F names).top.childOpener δ = s.kind.child.opener δ := by
    rw [(hs names).1]
    rfl
  have hinner (names : Runtime) : (F names).inner δ =
      { kind := s.kind.child
        startLine := (c.skip (s.kind.child.opener δ).length).line
        dialect := δ.naming names } := by
    rw [inner, hc, hopener, (hs names).1]
    rfl
  refine ⟨⟨c.skip (s.kind.child.opener δ).length, fun names => ?_⟩,
    ⟨⟨s.kind.child, (c.skip (s.kind.child.opener δ).length).line, [], 0, trivial, fun _ => trivial⟩,
      s :: below, fun names => ⟨hinner names, ?_⟩⟩, ?_⟩
  · rw [Machine.entered, hc, hopener]
  · rw [Machine.entered, (hs names).1, (hs names).2]
    rfl
  · refine push h.trace (fun names => rfl)
      ⟨.opened { kind := s.kind.child, startLine := (c.skip (s.kind.child.opener δ).length).line }
        (below.length + 1), fun names => ?_⟩
    rw [hinner, depth, (hs names).2, List.length_map]
    rfl

theorem left (h : Sketched δ F) (hc : ∀ names, Chooses δ (F names) .leave) :
    Sketched δ fun names => (F names).apply (δ.naming names) .leave := by
  obtain ⟨c, hcursor⟩ := h.cursor
  obtain ⟨s, below, hs⟩ := h.regions
  have hkind (names : Runtime) : (F names).top.kind = s.kind := by
    rw [(hs names).1]
    rfl
  have hends : s.kind ≠ .root ∧ 0 < below.length := by
    cases hc {} with
    | leave _ _ _ he hb =>
      rw [depth, (hs {}).2, List.length_map] at hb
      exact ⟨hkind {} ▸ he.1, hb⟩
  obtain ⟨parent, below, rfl⟩ := List.exists_cons_of_length_pos hends.2
  obtain ⟨s', hs'⟩ := parent.exists_fold_render s hends.1
  have hleft (names : Runtime) : (F names).apply (δ.naming names) .leave =
      (F names).left (δ.naming names) (parent.fill (δ.naming names))
        (below.map (·.fill (δ.naming names))) :=
    apply_leave (hs names).2
  simp only [hleft]
  refine ⟨⟨c.skip (s.kind.closer δ).length, fun names => ?_⟩,
    ⟨s', below, fun names => ⟨?_, rfl⟩⟩, ?_⟩
  · rw [Machine.left, hcursor, hkind]
    rfl
  · rw [Machine.left, hs', (hs names).1]
  · refine push h.trace (fun names => rfl)
      ⟨.closed { kind := s.kind, startLine := s.startLine, openBrackets := s.openBrackets }
        (c.skip (s.kind.closer δ).length).line, fun names => ?_⟩
    rw [hcursor, hkind, (hs names).1]
    rfl

theorem apply (h : Sketched δ F) {a : Action} (hc : ∀ names, Chooses δ (F names) a) :
    Sketched δ fun names => (F names).apply (δ.naming names) a := by
  cases a with
  | take kind value => exact h.took kind value
  | enter => exact h.entered
  | leave => exact h.left hc

/-- Behind the input the region on top says what the run is worth, or that it is not closed. -/
theorem result (h : Sketched δ F) :
    (∃ template : Template, ∀ names,
      (F names).result (δ.naming names) = .ok (template.fill names)) ∨
    ∃ failure, ∀ names, (F names).result (δ.naming names) = .error failure := by
  obtain ⟨c, hc⟩ := h.cursor
  obtain ⟨s, below, hs⟩ := h.regions
  have hkind (names : Runtime) : (F names).top.kind = s.kind := by
    rw [(hs names).1]
    rfl
  by_cases hk : s.kind = .root
  · left
    refine ⟨s.render, fun names => ?_⟩
    rw [Machine.result, if_pos ((hkind names).trans hk), (hs names).1, ← s.fill_render]
    rfl
  · right
    refine ⟨.unclosedRegion s.kind s.startLine c.line, fun names => ?_⟩
    rw [Machine.result, if_neg (hkind names ▸ hk), hc, (hs names).1]
    rfl

end Sketched

/-- Runs on one source have the same events whatever the names are, but for the dialects of regions and
what closed ones had gathered. Their outputs are one template, or they fail alike. -/
theorem exists_template_outcome {δ : Delimiters} (hδ : δ.Progressive) (source : List Char)
    (line : Int) :
    (∃ es, ∀ names,
      (begun (δ.naming names) source line).run.machine.trace.toList.map Event.bare = es) ∧
    ((∃ template : Template, ∀ names,
      (begun (δ.naming names) source line).run.outcome (δ.naming names) =
        .ok (template.fill names)) ∨
    ∃ failure, ∀ names,
      (begun (δ.naming names) source line).run.outcome (δ.naming names) = .error failure) := by
  obtain ⟨F, hF, -, hend⟩ := exists_run_family (D := δ.naming) (i := {}) (R := Sketched δ) hδ
    (fun _ => rfl) (fun F hF names => hF.inStep {} names) (fun F a hF hc => hF.apply hc)
    (Sketched.begun δ source line) (fun names => begun_nested (δ.naming names) source line)
  rcases hend with hend | ⟨ending, taken, hend⟩
  · have hrun (names : Runtime) : (begun (δ.naming names) source line).run = _ := (hend names).2
    simp only [hrun]
    exact ⟨hF.trace, hF.result⟩
  · have hrun (names : Runtime) : (begun (δ.naming names) source line).run = _ := hend names
    obtain ⟨c, hc⟩ := hF.cursor
    simp only [hrun]
    refine ⟨hF.trace, .inr ⟨ending.failure (c.skip taken.length).line, fun names => ?_⟩⟩
    rw [← hc names]
    rfl

/-- The line of the first character is not seen in the output. -/
theorem outcome_begun_line {d : Dialect} (hd : d.Progressive) {source output : List Char}
    {line : Int} (h : (begun d source line).run.outcome d = .ok output) (line' : Int) :
    (begun d source line').run.outcome d = .ok output := by
  have hregion : Region.Variant none [] [] (begun d source line).top (begun d source line').top :=
    ⟨rfl, rfl, fun hk => absurd rfl hk, [], [], nofun, rfl, rfl⟩
  have hv : Variant (line' - line) none [] [] [] []
      (begun d source line) (begun d source line') := by
    refine ⟨rfl, ?_, [], rfl, rfl, .holder hregion []⟩
    change line' = line + (line' - line)
    omega
  obtain ⟨_, -, -, ⟨front, back, -, ho, ho'⟩ | ⟨failure, ho, -⟩⟩ :=
    hv.run hd (begun_nested d source line) (begun_nested d source line')
  · exact ho'.trans (ho.symm.trans h)
  · rw [ho] at h
    cases h

/-- One template serves for every line on which the first character may stand. -/
theorem exists_template_lines {δ : Delimiters} (hδ : δ.Progressive) (source : List Char) :
    ∃ template : Template, ∀ line,
      (∀ names, (begun (δ.naming names) source line).run.outcome (δ.naming names) =
        .ok (template.fill names)) ∨
      ∃ failure, ∀ names,
        (begun (δ.naming names) source line).run.outcome (δ.naming names) = .error failure := by
  obtain ⟨-, ⟨template, hok⟩ | ⟨failure, hfail⟩⟩ := exists_template_outcome hδ source 1
  · exact ⟨template, fun line => .inl fun names => outcome_begun_line hδ (hok names) line⟩
  · refine ⟨[], fun line => ?_⟩
    obtain ⟨-, ⟨template, hok⟩ | hfail'⟩ := exists_template_outcome hδ source line
    · have hfirst := outcome_begun_line hδ (hok {}) 1
      rw [hfail] at hfirst
      cases hfirst
    · exact .inr hfail'

/-- The rounds are the same whatever the names are. -/
theorem ReachesIn.exists_frames {d d' : Dialect} (hd : d'.toDelimiters = d.toDelimiters)
    {source : List Char} {line : Int} {n : Nat} {m : Machine}
    (h : ReachesIn n (begun d source line) m) :
    ∃ m', ReachesIn n (begun d' source line) m' ∧ m'.cursor = m.cursor ∧
      m'.stack.map Region.frame = m.stack.map Region.frame := by
  obtain ⟨F, hF, rfl, hpaths⟩ := exists_reachesIn_family (D := d.toDelimiters.naming)
    (i := d.toRuntime) (R := Sketched d.toDelimiters) (fun _ => rfl)
    (fun F hF names => hF.inStep _ names) (fun F a hF hc => hF.apply hc)
    (Sketched.begun d.toDelimiters source line)
    (fun names => begun_nested (d.toDelimiters.naming names) source line) h
  obtain ⟨c, hc⟩ := hF.cursor
  have hpath := hpaths d'.toRuntime
  rw [Delimiters.naming_toRuntime hd] at hpath
  exact ⟨F d'.toRuntime, hpath, (hc _).trans (hc _).symm, hF.frames _ _⟩

end Machine

namespace Transpiler

/-- Tokens and messages are read off the bare events. -/
theorem tokens_messages_eq {d d' : Dialect} {file : String} {line : Int} {source : String}
    (h : (new d' file line source).run.1.machine.trace.toList.map Event.bare =
      (new d file line source).run.1.machine.trace.toList.map Event.bare) :
    (new d' file line source).run.1.tokens = (new d file line source).run.1.tokens ∧
    (new d' file line source).run.1.messages = (new d file line source).run.1.messages := by
  have htoken : Event.token? ∘ Event.bare = Event.token? := funext Event.token?_bare
  have hmessage : Event.message? file ∘ Event.bare = Event.message? file :=
    funext (Event.message?_bare file)
  constructor
  · have htokens := congrArg (List.filterMap Event.token?) h
    rw [List.filterMap_map, List.filterMap_map, htoken] at htokens
    exact htokens
  · have hmessages := congrArg (List.filterMap (Event.message? file)) h
    rw [List.filterMap_map, List.filterMap_map, hmessage] at hmessages
    exact hmessages

/-- Whatever the names are, runs on one source do the same, and their outputs are one template with
the names filled in. -/
theorem exists_template (δ : Delimiters) (hδ : δ.Progressive) (source : String) :
    ∃ template : Template, ∀ (file : String) (line : Int),
      ((∀ d : Dialect, d.toDelimiters = δ →
        (new d file line source).run.2 = .ok (String.ofList (template.fill d.toRuntime))) ∨
      ∃ diagnostic, ∀ d : Dialect, d.toDelimiters = δ →
        (new d file line source).run.2 = .error diagnostic) ∧
      ∀ d d' : Dialect, d.toDelimiters = δ → d'.toDelimiters = δ →
        (new d' file line source).run.1.tokens = (new d file line source).run.1.tokens ∧
        (new d' file line source).run.1.messages = (new d file line source).run.1.messages ∧
        ∀ n m, Machine.ReachesIn n (Machine.begun d source.toList line) m →
          ∃ m', Machine.ReachesIn n (Machine.begun d' source.toList line) m' ∧
            m'.cursor = m.cursor ∧
            m'.stack.map Region.frame = m.stack.map Region.frame := by
  obtain ⟨template, houtcome⟩ := Machine.exists_template_lines hδ source.toList
  refine ⟨template, fun file line => ⟨?_, ?_⟩⟩
  · have hanswer {d : Dialect} (hd : d.toDelimiters = δ) :
        (new d file line source).run.2 = answer d file
          ((Machine.begun (δ.naming d.toRuntime) source.toList line).run.outcome
            (δ.naming d.toRuntime)) := by
      rw [Delimiters.naming_toRuntime hd]
      exact (run_new d file line source).2
    rcases houtcome line with hok | ⟨failure, hfail⟩
    · left
      intro d hd
      rw [hanswer hd, hok]
      rfl
    · right
      refine ⟨failure.report δ file, fun d hd => ?_⟩
      rw [hanswer hd, hfail, ← hd]
      rfl
  · intro d d' hd hd'
    obtain ⟨⟨es, hes⟩, -⟩ := Machine.exists_template_outcome hδ source.toList line
    have htrace {d : Dialect} (hd : d.toDelimiters = δ) :
        (new d file line source).run.1.machine.trace.toList.map Event.bare = es := by
      have hnames := hes d.toRuntime
      rw [Delimiters.naming_toRuntime hd] at hnames
      rw [(run_new d file line source).1]
      exact hnames
    obtain ⟨htokens, hmessages⟩ := tokens_messages_eq ((htrace hd').trans (htrace hd).symm)
    exact ⟨htokens, hmessages, fun n m h => h.exists_frames (hd'.trans hd.symm)⟩

/-- Names of blanks and brackets come into a stylesheet around which blanks are taken off. -/
theorem exists_template_blank_names :
    Dialect.standard.Progressive ∧
    ∃ template : Template,
      (new .standard "page" 1 "<< [<<a>> ] >>").run.2 =
        .ok (String.ofList (template.fill Dialect.standard.toRuntime)) ∧
      (new { Dialect.standard with name := " ", evaluate := "[", expression := " " } "page" 1
        "<< [<<a>> ] >>").run.2 =
        .ok (String.ofList
          (template.fill { name := " ", evaluate := "[", expression := " " })) := by
  have hd : Dialect.standard.Progressive := by decide
  have hok : (new .standard "page" 1 "<< [<<a>> ] >>").run.2 =
      .ok "sheath.css.evaluate('' + sheath.css.jsExpr(sheath.css.evaluate('a') ) + '')" := by
    decide +kernel
  obtain ⟨template, htemplate⟩ := exists_template Dialect.standard.toDelimiters hd "<< [<<a>> ] >>"
  refine ⟨hd, template, ?_⟩
  rcases (htemplate "page" 1).1 with houtput | ⟨diagnostic, herror⟩
  · exact ⟨houtput _ rfl, houtput _ rfl⟩
  · rw [herror _ rfl] at hok
    cases hok

end Transpiler
end InlineSheet
