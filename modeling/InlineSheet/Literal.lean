/-!
String literals of the host language. A literal runs from a quote to the next quote of its own kind.
A backslash takes the character after it along, whatever it is. A raw line break is allowed only
between backticks.

`scan` reads one literal and says how it ended. `requote` writes a single-quoted literal for a
stylesheet, which is itself emitted between single quotes and quoted once more when it is evaluated.
It leaves backslashes as they are, so what stands between those quotes is one literal only if the
literal has no single quote in it (`Machine.readsAsLiteral_requote_iff`).
-/
namespace InlineSheet.Literal

def isQuote (c : Char) : Bool := c == '\'' || c == '"' || c == '\x60'

/-- The one quote between which lines may break. -/
def multiLineQuote : Char := '\x60'

/-- How reading a literal ends: at its closing quote, in front of a line break that it may not hold,
or with the input. -/
inductive Ending where
  | closed
  | lineBreak
  | inputEnd
  deriving DecidableEq

/-- Reads what follows an opening `quote`. The text is all that was passed over, the closing quote
included; a refused line break is not. -/
def scanBody (quote : Char) : List Char → Ending × List Char
  | [] => (.inputEnd, [])
  | c :: rest =>
    if c = quote then (.closed, [c])
    else if c = '\\' then
      match rest with
      | [] => (.inputEnd, [c])
      | d :: rest =>
        let (ending, taken) := scanBody quote rest
        (ending, c :: d :: taken)
    else if c = '\n' ∧ quote ≠ multiLineQuote then (.lineBreak, [])
    else
      let (ending, taken) := scanBody quote rest
      (ending, c :: taken)

/-- Reads a literal whose quote is the first character, whatever that is. At the end of the input
there is no quote to look for, and the literal is the empty text. -/
def scan : List Char → Ending × List Char
  | [] => (.closed, [])
  | quote :: rest =>
    let (ending, taken) := scanBody quote rest
    (ending, quote :: taken)

theorem scanBody_isPrefix (quote : Char) (cs : List Char) : (scanBody quote cs).2 <+: cs := by
  fun_induction scanBody quote cs <;> simp_all

theorem scan_isPrefix (cs : List Char) : (scan cs).2 <+: cs := by
  cases cs with
  | nil => simp [scan]
  | cons quote rest => simpa [scan] using scanBody_isPrefix quote rest

/-- The text between the first and the last character. -/
def inner (value : List Char) : List Char := value.tail.dropLast

/-- A single quote inside a re-quoted literal is escaped for two further layers of quotes. -/
def escapeQuote (c : Char) : List Char :=
  if c = '\'' then ['\\', '\\', '\\', '\''] else [c]

theorem escapeQuote_of_ne {c : Char} (h : c ≠ '\'') : escapeQuote c = [c] := if_neg h

def requote (value : List Char) : List Char :=
  ['\\', '\''] ++ (inner value).flatMap escapeQuote ++ ['\\', '\'']

end InlineSheet.Literal
