/-!
A text as lines. A line ends at a line feed; a last line that is empty is no line.
-/

namespace RegisterMachine.Text

/-- Splits at line feeds; `line` holds the characters of the present line, the last one first. -/
def splitLines (line : List Char) : List Char → List (List Char)
  | [] => if line.isEmpty then [] else [line.reverse]
  | '\n' :: rest => line.reverse :: splitLines [] rest
  | c :: rest => splitLines (c :: line) rest

/-- Removes the carriage returns at the end of a line. -/
def dropReturns (line : List Char) : List Char :=
  (line.reverse.dropWhile (· == '\r')).reverse

/-- The line with this number, counted from one, without the marks that end it. -/
def line? (text : String) (number : Nat) : Option String :=
  ((splitLines [] text.toList)[number - 1]?).map fun line => String.ofList (dropReturns line)

end RegisterMachine.Text
