import RegisterMachine.Tool.Folder

/-!
Surroundings held in memory: a folder, the input, and what has been written. `Desk.play` carries a
script out on them, with a limit on the steps of a machine.
-/

namespace RegisterMachine

structure Desk where
  folder : Folder
  /-- What the console has still to read. -/
  input : List UInt8
  /-- What the clock says when it is asked for the time that something took. -/
  clock : String
  output : List UInt8
  errors : String

namespace Desk

/-- Runs a machine on the desk's input and output. -/
def session (d : Desk) (limit : Nat) (m : Machine) (report : Event → String) : Session × Desk :=
  let (m, outcome, events) := { m with console := .ofBytes d.input }.run limit
  (⟨outcome, d.clock⟩,
    { d with
      input := []
      output := d.output ++ m.console.output
      errors := d.errors ++ String.join (events.toList.map report) })

/-- Carries a script out. The result is its exit code and the desk after it. -/
def play (limit : Nat) : Script → Desk → UInt8 × Desk
  | .exit code, d => (code, d)
  | .print bytes next, d => play limit next { d with output := d.output ++ bytes }
  | .complain text next, d => play limit next { d with errors := d.errors ++ text }
  | .find path next, d => play limit (next (d.folder.find path).isOk) d
  | .read path next, d => play limit (next (d.folder.read path)) d
  | .write path bytes next, d =>
    match d.folder.write path bytes with
    | .ok folder => play limit (next (.ok ())) { d with folder }
    | .error e => play limit (next (.error e)) d
  | .run m report next, d =>
    let (session, d) := d.session limit m report
    play limit (next session) d

end Desk

end RegisterMachine
