import InlineSheet.Proofs.Trace
import Mathlib.Data.List.Induction

/-!
# Stylesheets as literals

A stylesheet is emitted between single quotes. `Place` follows a text that stands behind a single quote,
character by character, and so tells whether the text is the body of a literal. Main statement: a
stylesheet of tokens alone, none in single quotes, is emitted as one literal just if no literal in it has
a bare single quote or line break and it does not end in a backslash that escapes. Both can fail, since
only what is in single quotes is quoted anew. Stylesheets with a host expression are left out: they are
emitted as several literals.
-/
namespace InlineSheet

namespace Literal

/-- The characters that no backslash takes along, without the backslashes that do. -/
def unescaped : List Char → List Char
  | [] => []
  | c :: rest =>
    if c = '\\' then
      match rest with
      | [] => []
      | _ :: rest => unescaped rest
    else c :: unescaped rest

def backslashes (cs : List Char) : Nat := (cs.reverse.takeWhile (· = '\\')).length

/-- Where the end of a text lies that begins behind a single quote. -/
inductive Place where
  | inside
  /-- Inside, and behind a backslash that takes the next character along. -/
  | escaped
  /-- Behind the literal, or behind a line break that it may not hold. -/
  | outside
  deriving DecidableEq

namespace Place

def next : Place → Char → Place
  | .inside, c => if c = '\\' then .escaped else if c = '\'' ∨ c = '\n' then .outside else .inside
  | .escaped, _ => .inside
  | .outside, _ => .outside

def after (p : Place) (cs : List Char) : Place := cs.foldl next p

@[simp] theorem after_nil (p : Place) : p.after [] = p := rfl

@[simp] theorem after_cons (p : Place) (c : Char) (cs : List Char) :
    p.after (c :: cs) = (p.next c).after cs := rfl

theorem after_append (p : Place) (cs ds : List Char) : p.after (cs ++ ds) = (p.after cs).after ds :=
  List.foldl_append

@[simp] theorem after_outside (cs : List Char) : after .outside cs = .outside := by
  induction cs with
  | nil => rfl
  | cons c cs ih => exact ih

/-- A text leaves the literal at a bare single quote or line break, and nowhere else. -/
theorem after_inside_eq_outside (cs : List Char) :
    after .inside cs = .outside ↔ '\'' ∈ unescaped cs ∨ '\n' ∈ unescaped cs := by
  fun_induction unescaped cs with
  | case1 => simp
  | case2 => simp [next]
  | case3 c rest ih => simpa [next] using ih
  | case4 c rest hc ih =>
    by_cases hout : c = '\'' ∨ c = '\n'
    · rcases hout with rfl | rfl <;> simp [next]
    · obtain ⟨hq, hn⟩ := not_or.mp hout
      simp [next, hc, hq, hn, ih, Ne.symm hq, Ne.symm hn]

theorem body_iff (cs : List Char) : Body '\'' cs ↔ after .inside cs = .inside := by
  constructor
  · intro h
    induction h with
    | nil => rfl
    | escaped c _ ih => simpa [next] using ih
    | bare c hq hb hn _ ih =>
      have hline : c ≠ '\n' := fun he => absurd (hn he) (by decide)
      simpa [next, hb, hq, hline] using ih
  · intro h
    fun_induction unescaped cs with
    | case1 => exact .nil
    | case2 => simp [next] at h
    | case3 c rest ih => exact .escaped c (ih (by simpa [next] using h))
    | case4 c rest hc ih =>
      by_cases hout : c = '\'' ∨ c = '\n'
      · simp [next, hc, hout] at h
      · obtain ⟨hq, hn⟩ := not_or.mp hout
        exact .bare c hq hc (fun he => absurd he hn) (ih (by simpa [next, hc, hout] using h))

/-- Within the literal, only the backslashes at the end of a text tell whether it ends escaped. -/
theorem after_inside_eq_escaped {cs : List Char} (h : after .inside cs ≠ .outside) :
    after .inside cs = .escaped ↔ backslashes cs % 2 = 1 := by
  induction cs using List.reverseRecOn with
  | nil => simp [backslashes]
  | append_singleton cs c ih =>
    have hcs : after .inside cs ≠ .outside := fun he => h (by rw [after_append, he, after_outside])
    have ih := ih hcs
    rw [after_append] at h ⊢
    by_cases hc : c = '\\'
    · have hcount : backslashes (cs ++ [c]) = backslashes cs + 1 := by simp [backslashes, hc]
      rw [hcount]
      cases hp : after .inside cs with
      | inside =>
        rw [hp] at ih
        simp only [reduceCtorEq, false_iff] at ih
        simp only [after_cons, after_nil, next, hc, if_true, true_iff]
        omega
      | escaped =>
        rw [hp] at ih
        simp only [true_iff] at ih
        simp only [after_cons, after_nil, next, reduceCtorEq, false_iff]
        omega
      | outside => exact absurd hp hcs
    · have hcount : backslashes (cs ++ [c]) = 0 := by simp [backslashes, hc]
      have hnext : (after .inside cs).next c ≠ .escaped := by
        cases after .inside cs with
        | inside => simp only [next, hc, if_false]; split <;> decide
        | escaped | outside => simp [next]
      rw [hcount]
      simp [hnext]

end Place

end Literal

/-- A token of a run that a stylesheet does not quote anew. -/
structure Token.Raw (t : Token) : Prop where
  admits : t.kind.Admits t.value
  head_ne : t.kind = .string → t.value.head? ≠ some '\''

/-- A literal that can stand between single quotes as it is. The other tokens always can. -/
def Token.Fits (t : Token) : Prop :=
  t.kind = .string → '\'' ∉ Literal.unescaped t.value ∧ '\n' ∉ Literal.unescaped t.value

instance (t : Token) : Decidable t.Fits := inferInstanceAs (Decidable (_ → _ ∧ _))

open Literal.Place

theorem Literal.Complete.after_eq {value : List Char} (h : Literal.Complete value)
    (hq : value.head? ≠ some '\'') {p : Place} (hp : p ≠ .outside) :
    p.after value = after .inside value := by
  obtain ⟨quote, body, hquote, -, rfl⟩ := h
  have hne : quote ≠ '\'' := by simpa using hq
  have hb := Literal.ne_backslash_of_isQuote hquote
  have hn := Literal.ne_newline_of_isQuote hquote
  cases p with
  | inside => rfl
  | escaped => simp [next, hne, hb, hn]
  | outside => exact absurd rfl hp

namespace Region

theorem after_added_eq_outside {r : Region} {t : Token} (hk : r.kind = .sheet) (ht : t.Raw)
    {p : Literal.Place} (hp : p ≠ .outside) : p.after (r.added t) = .outside ↔ ¬ t.Fits := by
  obtain ⟨ha, hq⟩ := ht
  rcases t with ⟨kind, value, line⟩
  cases kind with
  | comment => simp [added, hk, Token.Fits, hp]
  | whitespace =>
    have hspace : p.next ' ' ≠ .outside := by
      cases p with
      | inside | escaped => decide
      | outside => exact absurd rfl hp
    by_cases hlast : r.content.last? = some ' ' <;>
      simp [added, hk, hlast, Token.Fits, hp, hspace]
  | text =>
    obtain ⟨c, hc, hb, rfl⟩ := ha
    have hc' : c ≠ '\'' := by
      rintro rfl
      exact absurd hc (by decide)
    have hn : c ≠ '\n' := by
      rintro rfl
      exact absurd hb (by decide)
    have hnext : p.next c ≠ .outside := by
      cases p with
      | inside => simp only [next, hc', hn, or_self, if_false]; split <;> decide
      | escaped => simp [next]
      | outside => exact absurd rfl hp
    simp [added, hk, Token.Fits, hnext]
  | string =>
    have hhead := hq rfl
    have hadded : r.added ⟨.string, value, line⟩ = value := by
      simp [added, hk, sheetLiteral, hhead]
    rw [hadded, Literal.Complete.after_eq ha hhead hp, after_inside_eq_outside]
    simp only [Token.Fits, true_imp_iff]
    exact or_iff_not_and_not

/-- What a stylesheet gathers from tokens stays within the literal just if all of them fit. -/
theorem after_foldl_accept (d : Delimiters) {ts : List Token} (hts : ∀ t ∈ ts, t.Raw) {r : Region}
    (hk : r.kind = .sheet) :
    after .inside (ts.foldl (accept d) r).content.toList ≠ .outside ↔
      after .inside r.content.toList ≠ .outside ∧ ∀ t ∈ ts, t.Fits := by
  induction ts generalizing r with
  | nil => simp
  | cons t ts ih =>
    obtain ⟨ht, hts⟩ := List.forall_mem_cons.mp hts
    have hstep : after .inside (r.accept d t).content.toList ≠ .outside ↔
        after .inside r.content.toList ≠ .outside ∧ t.Fits := by
      rw [accept_toList, after_append]
      by_cases hp : after .inside r.content.toList = .outside
      · simp [hp]
      · simp [hp, after_added_eq_outside hk ht hp]
    rw [List.foldl_cons, ih hts ((accept_kind d r t).trans hk), hstep, and_assoc,
      List.forall_mem_cons]

/-- The blanks at the front of a text are spaces. -/
def LeadsWithSpaces (cs : List Char) : Prop := ∀ c ∈ cs.takeWhile Text.isBlank, c = ' '

theorem LeadsWithSpaces.append {cs ds : List Char} (hc : LeadsWithSpaces cs)
    (hd : LeadsWithSpaces ds) : LeadsWithSpaces (cs ++ ds) := by
  intro c h
  rw [List.takeWhile_append] at h
  split at h
  · rename_i hall
    rcases List.mem_append.mp h with h | h
    · have hcs : cs.takeWhile Text.isBlank = cs :=
        (List.takeWhile_prefix _).eq_of_length hall
      exact hc c (by rwa [hcs])
    · exact hd c h
  · exact hc c h

theorem leadsWithSpaces_added {r : Region} {t : Token} (hk : r.kind = .sheet) (ht : t.Raw) :
    LeadsWithSpaces (r.added t) ∧ LeadsWithSpaces (r.added t).reverse := by
  obtain ⟨ha, hq⟩ := ht
  rcases t with ⟨kind, value, line⟩
  cases kind with
  | comment => simp [added, hk, LeadsWithSpaces]
  | whitespace =>
    by_cases hlast : r.content.last? = some ' ' <;>
      simp [added, hk, hlast, LeadsWithSpaces, List.takeWhile_cons]
  | text =>
    obtain ⟨c, -, hb, rfl⟩ := ha
    simp [added, hk, LeadsWithSpaces, hb]
  | string =>
    obtain ⟨quote, body, hquote, -, rfl⟩ := ha
    have hb := isBlank_of_isQuote hquote
    have hne : quote ≠ '\'' := by simpa using hq rfl
    simp [added, hk, sheetLiteral, hne, LeadsWithSpaces, hb]

theorem leadsWithSpaces_foldl_accept (d : Delimiters) {ts : List Token} (hts : ∀ t ∈ ts, t.Raw)
    {r : Region} (hk : r.kind = .sheet) (hr : LeadsWithSpaces r.content.toList)
    (hr' : LeadsWithSpaces r.content.toList.reverse) :
    LeadsWithSpaces (ts.foldl (accept d) r).content.toList ∧
      LeadsWithSpaces (ts.foldl (accept d) r).content.toList.reverse := by
  induction ts generalizing r with
  | nil => exact ⟨hr, hr'⟩
  | cons t ts ih =>
    obtain ⟨ht, hts⟩ := List.forall_mem_cons.mp hts
    obtain ⟨hlead, htrail⟩ := leadsWithSpaces_added hk ht
    refine ih hts ((accept_kind d r t).trans hk) ?_ ?_
    · rw [accept_toList]
      exact hr.append hlead
    · rw [accept_toList, List.reverse_append]
      exact htrail.append hr'

end Region

theorem Text.exists_eq_append_trim (cs : List Char) :
    ∃ front back, cs = front ++ (trim cs ++ back) ∧ (∀ c ∈ front, c ∈ cs.takeWhile isBlank) ∧
      ∀ c ∈ back, c ∈ cs.reverse.takeWhile isBlank := by
  refine ⟨cs.takeWhile isBlank, ((cs.dropWhile isBlank).reverse.takeWhile isBlank).reverse, ?_,
    fun c hc => hc, fun c hc => ?_⟩
  · rw [trim, ← List.reverse_append, List.takeWhile_append_dropWhile, List.reverse_reverse,
      List.takeWhile_append_dropWhile]
  · have hsplit : cs.reverse = (cs.dropWhile isBlank).reverse ++ (cs.takeWhile isBlank).reverse := by
      rw [← List.reverse_append, List.takeWhile_append_dropWhile]
    rw [List.mem_reverse] at hc
    rw [hsplit, List.takeWhile_append]
    split
    · exact List.mem_append_left _ ((List.takeWhile_prefix _).subset hc)
    · exact hc

namespace Literal.Place

theorem after_spaces_eq_outside {p : Place} {cs : List Char} (h : ∀ c ∈ cs, c = ' ') :
    p.after cs = .outside ↔ p = .outside := by
  induction cs generalizing p with
  | nil => rfl
  | cons c cs ih =>
    obtain ⟨rfl, hcs⟩ := List.forall_mem_cons.mp h
    rw [after_cons, ih hcs]
    cases p <;> decide

theorem after_inside_spaces {cs : List Char} (h : ∀ c ∈ cs, c = ' ') :
    after .inside cs = .inside := by
  induction cs with
  | nil => rfl
  | cons c cs ih =>
    obtain ⟨rfl, hcs⟩ := List.forall_mem_cons.mp h
    exact ih hcs

theorem after_trim {cs : List Char} (hf : Region.LeadsWithSpaces cs)
    (hb : Region.LeadsWithSpaces cs.reverse) :
    after .inside (Text.trim cs) = .outside ↔ after .inside cs = .outside := by
  obtain ⟨front, back, hcs, hfront, hback⟩ := Text.exists_eq_append_trim cs
  have hall : after .inside cs = (after .inside (Text.trim cs)).after back := by
    rw [congrArg (after .inside) hcs, after_append, after_append,
      after_inside_spaces fun c hc => hf c (hfront c hc)]
  rw [hall, after_spaces_eq_outside fun c hc => hb c (hback c hc)]

end Literal.Place

/-- Reading a literal from the front of the text takes all of it, as one token. -/
def ReadsAsLiteral (text : List Char) : Prop :=
  ∀ (d : Dialect) (line : Int),
    ((Machine.start d text line).scanString d.toDelimiters).failure = none ∧
    ((Machine.start d text line).scanString d.toDelimiters).machine.cursor.rest = [] ∧
    ((Machine.start d text line).scanString d.toDelimiters).machine.trace.toList =
      [.token .root { kind := .string, value := text, line }]

theorem readsAsLiteral_iff {quote : Char} {cs : List Char} (hq : Literal.isQuote quote = true) :
    ReadsAsLiteral (quote :: cs) ↔ Literal.Complete (quote :: cs) := by
  constructor
  · intro h
    obtain ⟨hfail, -, htrace⟩ := h .standard 1
    rw [Machine.scanString,
      show (Machine.start .standard (quote :: cs) 1).cursor.rest = quote :: cs from rfl]
      at hfail htrace
    cases hs : Literal.scan (quote :: cs) with
    | mk ending taken =>
      rw [hs] at hfail htrace
      cases ending with
      | closed =>
        have hc := Literal.complete_of_scan hq hs
        simp only [Machine.deliver_eq _ _ _ hc.ne_nil] at htrace
        obtain ⟨rfl, -⟩ : taken = quote :: cs ∧ (Cursor.ofList (quote :: cs) 1).line = 1 := by
          simpa [Machine.took, Machine.start] using htrace
        exact hc
      | lineBreak | inputEnd => cases hfail
  · intro h d line
    have hs : Literal.scan (quote :: cs) = (.closed, quote :: cs) := by
      simpa using Literal.scan_append h []
    rw [Machine.scanString,
      show (Machine.start d (quote :: cs) line).cursor.rest = quote :: cs from rfl, hs]
    simp [Machine.deliver_eq, Machine.took, Machine.start, Cursor.skip, Cursor.ofList]

theorem Literal.complete_iff_body (quote : Char) (hq : isQuote quote = true) (body : List Char) :
    Complete (quote :: (body ++ [quote])) ↔ Body quote body := by
  constructor
  · intro h
    obtain ⟨quote', body', -, hb, he⟩ := h
    obtain ⟨rfl, htail⟩ := List.cons.inj he
    rwa [List.append_cancel_right htail]
  · intro h
    exact ⟨quote, body, hq, h, rfl⟩

theorem Literal.body_iff_of_after_ne {cs : List Char} (h : after .inside cs ≠ .outside) :
    Body '\'' cs ↔ backslashes cs % 2 = 0 := by
  have hescaped := after_inside_eq_escaped h
  rw [body_iff]
  cases hp : after .inside cs with
  | inside =>
    simp only [hp, reduceCtorEq, false_iff] at hescaped
    simp only [true_iff]
    omega
  | escaped =>
    simp only [hp, true_iff] at hescaped
    simp only [reduceCtorEq, false_iff]
    omega
  | outside => exact absurd hp h

@[simp] theorem Region.foldl_accept_kind (d : Delimiters) (ts : List Token) (r : Region) :
    (ts.foldl (accept d) r).kind = r.kind := by
  induction ts generalizing r with
  | nil => rfl
  | cons t ts ih => rw [List.foldl_cons, ih, accept_kind]

theorem Region.readsAsLiteral_render (d : Delimiters) (names : Runtime) {ts : List Token}
    (hts : ∀ t ∈ ts, t.Raw) {r : Region} (hk : r.kind = .sheet) (hr : r.content.toList = []) :
    ReadsAsLiteral ((ts.foldl (accept d) r).render names) ↔
      (∀ t ∈ ts, t.Fits) ∧
        Literal.backslashes (Text.trim (ts.foldl (accept d) r).content.toList) % 2 = 0 := by
  have hleads : LeadsWithSpaces r.content.toList ∧ LeadsWithSpaces r.content.toList.reverse := by
    simp [hr, LeadsWithSpaces]
  obtain ⟨hfront, hback⟩ := leadsWithSpaces_foldl_accept d hts hk hleads.1 hleads.2
  have htrim := after_trim hfront hback
  have hfits := after_foldl_accept d hts hk
  simp only [hr, after_nil, ne_eq, reduceCtorEq, not_false_eq_true, true_and] at hfits
  have hrender : (ts.foldl (accept d) r).render names =
      '\'' :: (Text.trim (ts.foldl (accept d) r).content.toList ++ ['\'']) := by
    simp [render, hk]
  rw [hrender, readsAsLiteral_iff (by decide), Literal.complete_iff_body _ (by decide), ← hfits,
    ← htrim]
  by_cases hout : after .inside (Text.trim (ts.foldl (accept d) r).content.toList) = .outside
  · simp [Literal.Place.body_iff, hout]
  · simp [Literal.body_iff_of_after_ne hout, hout]

/-- A stylesheet that closes in a run gathered the tokens since it opened, if no region opened in it. -/
theorem Transpiler.eq_foldl_of_trace {d : Dialect} {file : String} {line : Int} {source : String}
    {before behind : List Event} {start region : Region} {depth : Nat} {ts : List Token}
    {k : Region.Kind} {endLine : Int}
    (h : (Transpiler.new d file line source).run.1.machine.trace.toList =
      before ++ .opened start depth :: (ts.map (.token k) ++ .closed region endLine :: behind)) :
    (∀ t ∈ ts, t.kind.Admits t.value) ∧ start.content = {} ∧
      region = ts.foldl (Region.accept d.toDelimiters) start := by
  obtain ⟨m, hp, htrace⟩ := Machine.exists_reaches_run (Machine.begun_nested d source.toList line)
  obtain ⟨-, ht⟩ := hp.traced
  rw [(Transpiler.run_new d file line source).1, htrace] at h
  refine ⟨fun t hmem => ?_, ?_⟩
  · exact ht.shaped (.token k t) (by rw [h]; simp [hmem])
  · have hreplay := ht.replay
    rw [h] at hreplay
    obtain ⟨s, -, hopened⟩ := hreplay.split
    cases hopened with
    | cons hlead hrest =>
      cases hlead with
      | opened top below startLine =>
        obtain ⟨s', htokens, hclosed⟩ := hrest.split
        rw [htokens.tokens] at hclosed
        cases hclosed with
        | cons hlead _ =>
          cases hlead
          exact ⟨rfl, rfl⟩

/-- A closed stylesheet of tokens alone, none in single quotes, is emitted as one literal just if no
literal in it has a bare single quote or line break and its text does not end in a backslash that
escapes. -/
theorem Transpiler.readsAsLiteral_sheet_iff (d : Dialect) (file : String) (line : Int)
    (source : String) (before behind : List Event) (start region : Region) (depth : Nat)
    (ts : List Token) (endLine : Int)
    (htrace : (Transpiler.new d file line source).run.1.machine.trace.toList =
      before ++ .opened start depth :: (ts.map (.token .sheet) ++ .closed region endLine :: behind))
    (hkind : region.kind = .sheet)
    (hquote : ∀ t ∈ ts, t.kind = .string → t.value.head? ≠ some '\'') :
    ReadsAsLiteral (region.render d.toRuntime) ↔
      (∀ t ∈ ts, t.Fits) ∧ Literal.backslashes (Text.trim region.content.toList) % 2 = 0 := by
  obtain ⟨hadmits, hcontent, rfl⟩ := Transpiler.eq_foldl_of_trace htrace
  rw [Region.foldl_accept_kind] at hkind
  exact Region.readsAsLiteral_render d.toDelimiters d.toRuntime
    (fun t ht => ⟨hadmits t ht, hquote t ht⟩) hkind (by rw [hcontent]; rfl)

/-- An escaped single quote between double quotes, and two backslashes before the space that is cut
off. -/
theorem Transpiler.readsAsLiteral_sheet_iff_escaped :
    (Transpiler.new .standard "page" 1 "p<<\"\\'\"\\\\ >>").run.1.machine.trace.toList =
      [.token .root ⟨.text, ['p'], 1⟩] ++ .opened { kind := .sheet } 1 ::
        ([⟨.string, ['"', '\\', '\'', '"'], 1⟩, ⟨.text, ['\\'], 1⟩, ⟨.text, ['\\'], 1⟩,
          ⟨.whitespace, [' '], 1⟩].map (.token .sheet) ++
        .closed { kind := .sheet, content := ⟨[' ', '\\', '\\', '"', '\'', '\\', '"']⟩ } 1 :: []) ∧
    ReadsAsLiteral (Region.render Dialect.standard.toRuntime
      { kind := .sheet, content := ⟨[' ', '\\', '\\', '"', '\'', '\\', '"']⟩ }) := by
  refine (and_iff_left_of_imp fun htrace => ?_).mpr (by decide +kernel)
  exact (Transpiler.readsAsLiteral_sheet_iff _ _ _ _ _ _ _ _ _ _ _ htrace rfl (by decide)).mpr
    (by decide)

/-- A lone backslash escapes the quote that is to end the literal. -/
theorem Transpiler.not_readsAsLiteral_backslash :
    transpile .standard "page" "<<\\>>" = .ok "sheath.css.evaluate('\\')" ∧
    (Transpiler.new .standard "page" 1 "<<\\>>").run.1.machine.trace.toList =
      [.opened { kind := .sheet } 1, .token .sheet ⟨.text, ['\\'], 1⟩,
        .closed { kind := .sheet, content := ⟨['\\']⟩ } 1] ∧
    ¬ ReadsAsLiteral (Region.render Dialect.standard.toRuntime
      { kind := .sheet, content := ⟨['\\']⟩ }) := by
  refine ⟨by decide +kernel, by decide +kernel, fun h => ?_⟩
  obtain ⟨hfail, -⟩ := h .standard 1
  exact absurd hfail (by decide)

end InlineSheet
