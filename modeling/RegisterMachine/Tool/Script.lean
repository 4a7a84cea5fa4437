import RegisterMachine.Machine.Step
import RegisterMachine.Report.Level

/-!
What a command does, as a tree: each node asks the surroundings for one thing and goes on with the
answer. `Desk.play` answers from memory.
-/

namespace RegisterMachine

/-- Why a file cannot be read or written. -/
inductive FileError where
  | notFound
  | notDirectory
  | isDirectory
  /-- A name on the path, or the path itself, is longer than the file system takes. -/
  | nameTooLong
  | other (reason : String)
  deriving DecidableEq, Repr

namespace FileError

def message : FileError → String
  | .notFound => "No such file or directory (os error 2)"
  | .notDirectory => "Not a directory (os error 20)"
  | .isDirectory => "Is a directory (os error 21)"
  | .nameTooLong => "File name too long (os error 36)"
  | .other reason => reason

end FileError

/-- How a machine was run on the console of the surroundings. -/
structure Session where
  outcome : Outcome
  /-- The milliseconds that it took, as text. -/
  elapsed : String

inductive Script where
  | exit (code : UInt8)
  /-- Writes bytes to the output. -/
  | print (bytes : List UInt8) (next : Script)
  /-- Writes text to the error output. -/
  | complain (text : String) (next : Script)
  /-- Asks whether a path leads to something. -/
  | find (path : String) (next : Bool → Script)
  | read (path : String) (next : Except FileError (List UInt8) → Script)
  | write (path : String) (bytes : List UInt8) (next : Except FileError Unit → Script)
  /-- Runs a machine on the console; `report` says what of its events is written to the error
  output. -/
  | run (m : Machine) (report : Event → String) (next : Session → Script)

/-- A report on a line of its own. -/
def Level.line (level : Level) (text : String) : String := s!"[{level.text}] {text}\n"

/-- The line of an event, if its level is shown. -/
def Event.line (least : Level) (e : Event) : String :=
  if least.shows e.level then e.level.line e.text else ""

namespace Script

/-- Reports something, if its level is shown. -/
def report (least level : Level) (text : String) (next : Script) : Script :=
  if least.shows level then .complain (level.line text) next else next

/-- Reports events in their order. -/
def reportAll (least : Level) (events : List Event) (next : Script) : Script :=
  events.foldr (fun e next => report least e.level e.text next) next

/-- Reports an error, which every level shows, and ends. -/
def fail (text : String) : Script := .complain (Level.error.line text) (.exit 1)

end Script

end RegisterMachine
