import RegisterMachine.Tool.AssembleCommand
import RegisterMachine.Tool.RunCommand

/-!
The command line. The first argument picks a command; its script is carried out on the files and the
standard streams of the process.
-/

namespace RegisterMachine.CommandLine

/-- The cause behind an error of the file system, by its number. -/
def fileError (e : IO.Error) : FileError :=
  match e with
  | .noFileOrDirectory .. => .notFound
  | .inappropriateType _ code _ =>
    if code = 20 then .notDirectory else if code = 21 then .isDirectory else .other (toString e)
  | .invalidArgument _ code _ => if code = 36 then .nameTooLong else .other (toString e)
  | _ => .other (toString e)

/-- Whether a path leads to something. -/
def exists? (path : String) : IO Bool := do
  try
    let _ ← IO.FS.Handle.mk path .read
    return true
  catch e =>
    return fileError e ∉ [.notFound, .notDirectory, .nameTooLong]

def readFile (path : String) : IO (Except FileError (List UInt8)) := do
  try
    return .ok (← (← IO.FS.Handle.mk path .read).readBinToEnd).data.toList
  catch e =>
    return .error (fileError e)

def writeFile (path : String) (bytes : List UInt8) : IO (Except FileError Unit) := do
  try
    return .ok (← IO.FS.writeBinFile path ⟨bytes.toArray⟩)
  catch e =>
    return .error (fileError e)

/-- Gives the console a byte of the standard input, or leaves it empty at the end of the input. -/
def feed (m : Machine) : IO Machine := do
  let arrived ← (← IO.getStdin).read 1
  return { m with console := { m.console with input := arrived.data.toList.map .byte } }

/-- Writes what the console has taken to the standard output. -/
def drain (m : Machine) : IO Machine := do
  if m.console.written.isEmpty then return m
  let output ← IO.getStdout
  output.write ⟨m.console.output.toArray⟩
  if m.console.written.contains 10 then output.flush
  return { m with console := { m.console with written := [] } }

/-- Runs a machine on the standard streams, one step after the other. -/
partial def session (started : Nat) (report : Event → String) (m : Machine) : IO Outcome := do
  let m ← if m.readsNext ∧ m.console.input.isEmpty then feed m else pure m
  let r := { m with clock := UInt32.ofNat ((← IO.monoMsNow) - started) }.step
  let m ← drain r.machine
  r.events.forM fun e => IO.eprint (report e)
  match r.answer with
  | .ok .running => session started report m
  | .ok .halted => return (m.finish .halted #[]).2.1
  | .ok .terminated => return (m.finish .terminated #[]).2.1
  | .ok .suspended => return .suspended
  | .error f => return .failed f

/-- Carries a script out. The result is its exit code. -/
def perform : Script → IO UInt32
  | .exit code => return code.toUInt32
  | .print bytes next => do
    (← IO.getStdout).write ⟨bytes.toArray⟩
    perform next
  | .complain text next => do
    IO.eprint text
    perform next
  | .find path next => do perform (next (← exists? path))
  | .read path next => do perform (next (← readFile path))
  | .write path bytes next => do perform (next (← writeFile path bytes))
  | .run m report next => do
    let started ← IO.monoMsNow
    let outcome ← session started report m
    (← IO.getStdout).flush
    perform (next ⟨outcome, toString ((← IO.monoMsNow) - started)⟩)

/-- The commands by their names. -/
def commands : List (String × (String → Level → List String → Script)) :=
  [("assemble", AssembleCommand.script), ("run", RunCommand.script)]

end RegisterMachine.CommandLine

open RegisterMachine CommandLine in
def main (arguments : List String) : IO UInt32 := do
  let least := ((← IO.getEnv "TERRANVM_LOG").bind Level.parse?).getD .info
  match arguments with
  | [] => perform (Script.fail "No command given")
  | name :: rest =>
    match commands.lookup name with
    | some command => perform (command name least rest)
    | none => perform (Script.fail s!"Unknown command: {name}")
