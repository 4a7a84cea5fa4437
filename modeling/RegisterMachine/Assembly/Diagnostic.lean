import RegisterMachine.Assembly.AssemblyError
import RegisterMachine.Text.Lines

/-!
An assembly error as a message to a reader: what is wrong, where, and the line of the source with a
mark under the place.
-/

namespace RegisterMachine

namespace Diagnostic

/-- A line number, right-aligned to four places. -/
def lineNumber (line : Nat) : String :=
  let digits := toString line
  String.ofList (List.replicate (4 - digits.length) ' ') ++ digits

/-- The source line of a position with a mark under the column. A position behind the last line
shows nothing. -/
def excerpt (source : String) (position : Position) : String :=
  match Text.line? source position.line with
  | none => ""
  | some line =>
    let indent := String.ofList (List.replicate (position.column - 1) ' ')
    s!"  |\n{lineNumber position.line} | {line}\n  | {indent}^\n"

end Diagnostic

/-- The message for an error in the source text of this name. -/
def AssemblyError.diagnostic (e : AssemblyError) (name source : String) : String :=
  match e.position? with
  | none => s!"error: {e.message}\n"
  | some position =>
    s!"error: {e.reason}\n --> {name}:{position.line}:{position.column}\n"
      ++ Diagnostic.excerpt source position ++ "\n"

end RegisterMachine
