import InlineSheet.File
import Mathlib.Data.List.Basic

/-!
# Files with any line endings

A line of a file ends in a line feed, in a carriage return, or in both, and one file may mix the three.
Main statement: a file is transpiled as the text is whose lines it holds, with the same answer, tokens
and log, whichever way each of its lines ends. The file may be in any encoding, and any host may hold it.
All that is asked is that a carriage return on its own does not stand right before a line feed, since
the two would be one line ending.
-/
namespace InlineSheet

namespace Text

/-- The ways in which a line of a file may end. -/
inductive LineEnding where
  | lf
  | crlf
  | cr
  deriving DecidableEq

def LineEnding.chars : LineEnding → List Char
  | .lf => ['\n']
  | .crlf => ['\r', '\n']
  | .cr => ['\r']

/-- `WrittenAs text content`: the content is the text with some line ending for each of its line feeds,
and a `cr` never stands right before an `lf`. -/
inductive WrittenAs : List Char → List Char → Prop
  | nil : WrittenAs [] []
  | char {c : Char} {text content : List Char} (hc : c ≠ '\n') (h : WrittenAs text content) :
      WrittenAs (c :: text) (c :: content)
  | line (ending : LineEnding) {text content : List Char}
      (hapart : ending = .cr → content.head? ≠ some '\n') (h : WrittenAs text content) :
      WrittenAs ('\n' :: text) (ending.chars ++ content)

theorem unifyLineEndings_cons {c : Char} (hc : c ≠ '\r') (rest : List Char) :
    unifyLineEndings (c :: rest) = c :: unifyLineEndings rest := by
  rw [unifyLineEndings]
  · exact fun _ he => absurd he hc
  · exact hc

theorem unifyLineEndings_cr {rest : List Char} (h : rest.head? ≠ some '\n') :
    unifyLineEndings ('\r' :: rest) = '\n' :: unifyLineEndings rest := by
  rw [unifyLineEndings]
  rintro tail rfl
  exact h rfl

theorem WrittenAs.unifyLineEndings_eq {text content : List Char} (h : WrittenAs text content)
    (hreturn : '\r' ∉ text) : unifyLineEndings content = text := by
  induction h with
  | nil => rfl
  | char hc h ih =>
    rw [List.mem_cons, not_or] at hreturn
    rw [unifyLineEndings_cons (Ne.symm hreturn.1), ih hreturn.2]
  | line ending hapart h ih =>
    have htext := ih fun hmem => hreturn (List.mem_cons_of_mem _ hmem)
    cases ending with
    | lf => rw [LineEnding.chars, List.singleton_append, unifyLineEndings_cons (by decide), htext]
    | crlf => rw [LineEnding.chars, List.cons_append, List.singleton_append, unifyLineEndings, htext]
    | cr => rw [LineEnding.chars, List.singleton_append, unifyLineEndings_cr (hapart rfl), htext]

/-- Every content is some text with its line endings. -/
theorem writtenAs_unifyLineEndings (content : List Char) :
    WrittenAs (unifyLineEndings content) content := by
  fun_induction unifyLineEndings content with
  | case1 => exact .nil
  | case2 rest ih => exact .line .crlf (fun h => absurd h (by decide)) ih
  | case3 rest hnot ih =>
    refine .line .cr (fun _ hhead => ?_) ih
    obtain ⟨tail, rfl⟩ := List.head?_eq_some_iff.mp hhead
    exact hnot tail rfl
  | case4 c rest _ _ ih =>
    by_cases hc : c = '\n'
    · subst hc
      exact .line .lf (fun h => absurd h (by decide)) ih
    · exact .char hc ih

/-- Making the line endings alike gives the one text without carriage returns that was written. -/
theorem unifyLineEndings_eq_iff {text content : List Char} :
    unifyLineEndings content = text ↔ '\r' ∉ text ∧ WrittenAs text content := by
  refine ⟨fun h => ?_, fun ⟨hreturn, h⟩ => h.unifyLineEndings_eq hreturn⟩
  rw [← h]
  exact ⟨not_mem_unifyLineEndings content, writtenAs_unifyLineEndings content⟩

end Text

namespace File

variable {host : Host} {encoding path : String} {bytes : Bytes}
  {decode : Bytes → Option (List Char)} {content : List Char}

theorem read_eq (hload : host.load path = .ok bytes) (hdecoder : host.decoder? encoding = some decode)
    (hdecode : decode bytes = some content) :
    read host encoding path = .ok (String.ofList (Text.unifyLineEndings content)) := by
  rw [read, hload, show Except.ok bytes = (pure bytes : Except Problem Bytes) from rfl, pure_bind]
  simp only [hdecoder, hdecode]
  rfl

theorem transpileOn_of_read (d : Dialect) {source : String}
    (hread : read host encoding path = .ok source) :
    transpileOn host encoding d path =
      { outcome := (InlineSheet.transpile d path source).mapError .rejected
        log := Log.fileRead path source.length ::
          Log.ofTranspiler (Transpiler.new d path 1 source).run.1
        tokens := (Transpiler.new d path 1 source).run.1.tokens } := by
  rw [transpileOn, hread]
  rfl

/-- A file is transpiled as the text whose lines it holds, however they end. The log begins with the
size of that text. -/
theorem transpileOn_of_writtenAs (host : Host) (encoding path : String) (d : Dialect) (t : String)
    (bytes : Bytes) (decode : Bytes → Option (List Char)) (content : List Char)
    (hload : host.load path = .ok bytes) (hdecoder : host.decoder? encoding = some decode)
    (hdecode : decode bytes = some content) (hreturn : '\r' ∉ t.toList)
    (hwritten : Text.WrittenAs t.toList content) :
    transpileOn host encoding d path =
      { outcome := (InlineSheet.transpile d path t).mapError .rejected
        log := Log.fileRead path t.length :: Log.ofTranspiler (Transpiler.new d path 1 t).run.1
        tokens := (Transpiler.new d path 1 t).run.1.tokens } := by
  apply transpileOn_of_read
  rw [read_eq hload hdecoder hdecode, Text.unifyLineEndings_eq_iff.mpr ⟨hreturn, hwritten⟩,
    String.ofList_toList]

/-- A line break that a literal escapes may be of two characters. Read as they stand, only the first of
the two would be escaped. -/
theorem transpileOn_of_writtenAs_mixed :
    '\r' ∉ "'\\\n'\n//\n\n\"".toList ∧
    Text.WrittenAs "'\\\n'\n//\n\n\"".toList "'\\\r\n'\r//\r\r\n\"".toList ∧
    transpile (.ofFiles [("a".toList, [0x27, 0x5C, 0x0D, 0x0A, 0x27, 0x0D, 0x2F, 0x2F, 0x0D, 0x0D, 0x0A,
        0x22])]) "latin-1" .standard "./a" =
      { outcome := .error (.rejected (.located (.unterminatedString "Unexpected end of file") (some 5)
          (some "./a")))
        log := [{ channel := "hss", message := "Transpiling ./a (10 chars)" }]
        tokens := [(.root, { kind := .string, value := ['\'', '\\', '\n', '\''], line := 1 }),
          (.root, { kind := .whitespace, value := ['\n'], line := 2 }),
          (.root, { kind := .comment, value := ['/', '/'], line := 3 }),
          (.root, { kind := .whitespace, value := ['\n'], line := 3 }),
          (.root, { kind := .whitespace, value := ['\n'], line := 4 })] } ∧
    InlineSheet.transpile .standard "./a" "'\\\r\n'\r//\r\r\n\"" =
      .error (.located (.unterminatedString "Unexpected multi-line string") (some 1)
        (some "./a")) := by
  obtain ⟨hreturn, hwritten⟩ := Text.unifyLineEndings_eq_iff.mp
    (show Text.unifyLineEndings "'\\\r\n'\r//\r\r\n\"".toList = "'\\\n'\n//\n\n\"".toList by
      decide +kernel)
  have hload (bytes : Bytes) :
      (Host.ofFolder (.ofFiles [("a".toList, bytes)])).load "./a" = .ok bytes := rfl
  refine ⟨hreturn, hwritten, ?_, by decide +kernel⟩
  rw [transpile, transpileOn_of_writtenAs _ "latin-1" _ _ _ _ _ _ (hload _) rfl _ hreturn hwritten,
    Report.mk.injEq]
  · exact ⟨by decide +kernel, by decide +kernel, by decide +kernel⟩
  · rfl

end File
end InlineSheet
