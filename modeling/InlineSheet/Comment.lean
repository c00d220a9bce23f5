import InlineSheet.Token

/-!
Comments of the host language: from two slashes to the end of the line, or from a slash and a star
to the first star and slash after them. A block comment that is never closed runs to the end of the
input. A slash that begins no comment is text.
-/
namespace InlineSheet.Comment

/-- Everything in front of the next line break. -/
def scanLine (cs : List Char) : List Char := cs.takeWhile (· ≠ '\n')

/-- Everything up to and including the first star and slash. -/
def scanToClose : List Char → List Char
  | [] => []
  | '*' :: '/' :: _ => ['*', '/']
  | c :: rest => c :: scanToClose rest

/-- Two characters, and from there to the close, so that the opening star closes nothing. -/
def scanBlock (cs : List Char) : List Char := cs.take 2 ++ scanToClose (cs.drop 2)

/-- Reads a comment, or else one character of text. -/
def scan (cs : List Char) : Token.Kind × List Char :=
  match cs with
  | '/' :: '/' :: _ => (.comment, scanLine cs)
  | '/' :: '*' :: _ => (.comment, scanBlock cs)
  | _ => (.text, cs.take 1)

theorem scanToClose_isPrefix (cs : List Char) : scanToClose cs <+: cs := by
  fun_induction scanToClose cs <;> simp_all

theorem scanBlock_isPrefix (cs : List Char) : scanBlock cs <+: cs := by
  obtain ⟨tail, h⟩ := scanToClose_isPrefix (cs.drop 2)
  refine ⟨tail, ?_⟩
  rw [scanBlock, List.append_assoc, h, List.take_append_drop]

theorem scan_isPrefix (cs : List Char) : (scan cs).2 <+: cs := by
  unfold scan
  split
  · exact List.takeWhile_prefix _
  · exact scanBlock_isPrefix _
  · exact List.take_prefix 1 cs

end InlineSheet.Comment
