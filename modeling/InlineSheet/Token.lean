import InlineSheet.Text.Quoted

/-!
Tokens: the pieces of input that are handed to a region, each with its kind and the line on which
it begins.
-/
namespace InlineSheet

/-- Comments, string literals and blanks are told apart in every region alike; all else is text. -/
inductive Token.Kind where
  | comment
  | string
  | whitespace
  | text
  deriving DecidableEq

structure Token where
  kind : Token.Kind
  value : List Char
  line : Int := 1
  deriving DecidableEq

namespace Token

/-- The kinds in their fixed order. -/
def Kind.all : List Kind := [.comment, .string, .whitespace, .text]

def Kind.label : Kind → String
  | .comment => "COMMENT"
  | .string => "STRING"
  | .whitespace => "WHITESPACE"
  | .text => "TEXT"

/-- The place of a kind in the fixed order, counted from one. -/
def Kind.number : Kind → Nat
  | .comment => 1
  | .string => 2
  | .whitespace => 3
  | .text => 4

def Kind.ofLabel? (label : String) : Option Kind := Kind.all.find? (·.label == label)

theorem Kind.ofLabel?_label (k : Kind) : Kind.ofLabel? k.label = some k := by
  cases k <;> decide

/-- A value of more than twenty characters is shown by its first seventeen and three dots. -/
def shown (value : List Char) : List Char :=
  if value.length > 20 then value.take 17 ++ ['.', '.', '.'] else value

/-- A short description of a token for people. -/
def describe (t : Token) : String :=
  s!"Token({t.kind.label}, {Text.quoted (String.ofList (shown t.value))}, {t.line})"

end Token
end InlineSheet
