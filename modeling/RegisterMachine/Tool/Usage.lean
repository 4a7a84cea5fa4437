import RegisterMachine.Tool.Script

/-!
What is wrong with the arguments of a command, and how that is said.
-/

namespace RegisterMachine

inductive ArgumentError where
  | missingValue (option : String)
  | invalidNumber (option value : String)
  | unexpected (argument : String)
  | noInput
  deriving DecidableEq, Repr

namespace ArgumentError

def message : ArgumentError → String
  | .missingValue option => s!"{option} requires an argument"
  | .invalidNumber option value =>
    s!"Invalid value for {option}: '{value}' is not a valid number"
  | .unexpected argument => s!"Unexpected argument: {argument}\n"
  | .noInput => "No input file given"

/-- Reports the error and ends. The usage is told where an argument has no meaning. -/
def script (e : ArgumentError) (usage : String) : Script :=
  match e with
  | .unexpected _ =>
    .complain (Level.error.line e.message) (.complain (usage ++ "\n") (.exit 1))
  | _ => Script.fail e.message

end ArgumentError

namespace Script

/-- A command that tells its usage when it gets no argument or is asked for help first. -/
def command (usage : String) (body : List String → Script) : List String → Script
  | [] => .complain (usage ++ "\n") (.exit 1)
  | first :: rest =>
    if first = "--help" ∨ first = "-h" then .complain (usage ++ "\n") (.exit 0)
    else body (first :: rest)

end Script

end RegisterMachine
