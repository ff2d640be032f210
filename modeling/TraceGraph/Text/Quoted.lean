import TraceGraph.Text.Unprintable

/-! # Quoted text

Text is shown between two quote marks.  The mark itself and the backslash are written behind a
backslash, five control characters have a letter of their own, and every other character without a
visible form of its own is written by its number. -/
namespace TraceGraph.Text
set_option autoImplicit false

/-- A character by its number: `\u`, then lower-case hexadecimal digits in braces. -/
def numbered (c : Char) : List Char :=
  ['\\', 'u', '\x7b'] ++ Nat.toDigits 16 c.toNat ++ ['\x7d']

/-- How `c` is written between two marks `mark`. -/
def escaped (mark c : Char) : List Char :=
  if c = mark ∨ c = '\\' then ['\\', c]
  else if c = '\x00' then ['\\', '0']
  else if c = '\t' then ['\\', 't']
  else if c = '\n' then ['\\', 'n']
  else if c = '\r' then ['\\', 'r']
  else if isUnprintable c then numbered c
  else [c]

/-- The text `cs` between two marks `mark`. -/
def quoted (mark : Char) (cs : List Char) : String :=
  String.ofList ([mark] ++ cs.flatMap (escaped mark) ++ [mark])

/-- Single characters stand between apostrophes. -/
def quotedChar (c : Char) : String := quoted '\x27' [c]

/-- Longer texts stand between double quotes. -/
def quotedString (s : String) : String := quoted '\x22' s.toList

end TraceGraph.Text
