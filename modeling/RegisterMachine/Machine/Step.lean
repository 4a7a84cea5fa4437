import RegisterMachine.Machine.Effect

/-!
The execution loop. A step delivers what the host raised, fetches a word, decodes it and executes
it; a fault on the way is raised in the program, and a failure stops the step. `Machine.run` repeats
steps, within a limit on their number that is part of its answer when it is reached.
-/

namespace RegisterMachine

/-- What a step came to. -/
inductive Status where
  | running
  | halted
  | terminated
  /-- Nothing was done: the host paused the machine, or a `YIELD` did. -/
  | suspended
  deriving DecidableEq, Repr

/-- A machine after an action, the action's answer and what there is to report. -/
structure Report (α : Type) where
  machine : Machine
  answer : Except Failure α
  events : List Event

/-- How a run ended. -/
inductive ExitReason where
  | halted
  | terminated
  deriving DecidableEq, Repr

def ExitReason.text : ExitReason → String
  | .halted => "halted"
  | .terminated => "terminated by host"

inductive Outcome where
  | exited (reason : ExitReason)
  | failed (f : Failure)
  | suspended
  /-- The limit on the number of steps was reached. -/
  | exhausted
  deriving DecidableEq, Repr

namespace Machine

/-! ### Interrupts -/

/-- Calls the handler of an interrupt. Without a handler a fault is a failure, and any other
interrupt is dropped. -/
def raise (m : Machine) (i : Interrupt) : Report Unit :=
  let pc := m.context.pc
  match m.vector i with
  | .error j => ⟨m, .error (.access j), []⟩
  | .ok vector =>
    if vector = 0 then
      if i.isFault then ⟨m, .error (.unhandled i pc), []⟩ else ⟨m, .ok (), [.dropped i]⟩
    else
      match m.context.stack.pushReserved? pc with
      | none => ⟨m, .error (.doubleFault i pc), []⟩
      | some stack =>
        ⟨m.modifyContext fun c => { c with stack, pc := vector <<< 2 }, .ok (), []⟩

/-- Raises interrupts one after the other, up to the first failure. -/
def deliver (m : Machine) : List Interrupt → Report Unit
  | [] => ⟨m, .ok (), []⟩
  | i :: rest =>
    let r := m.raise i
    match r.answer with
    | .error f => ⟨r.machine, .error f, r.events⟩
    | .ok () =>
      let others := r.machine.deliver rest
      { others with events := r.events ++ others.events }

/-! ### One instruction -/

/-- The word at the program counter, which must be aligned and lie between the vectors and the end
of memory. -/
def fetch (m : Machine) : Except Interrupt UInt32 :=
  let pc := m.context.pc
  if 0x80000000 ≤ pc.toNat then .error .segmentationFault
  else if m.memory.size ≤ pc.toNat then .error .outOfMemory
  else if pc.toNat < vectorsEnd ∨ pc.toNat % 4 ≠ 0 then .error .segmentationFault
  else m.memory.loadWord pc

/-- Moves the program counter to the next word. -/
def advance (m : Machine) : Machine := m.modifyContext fun c => { c with pc := c.pc + 4 }

/-- Executes a decoded instruction; one whose condition does not hold does nothing. -/
def execute (m : Machine) (d : Decoded) : Progress :=
  if d.condition.holds m.context.flag then
    match m.plan d with
    | .error stop => ⟨m, some stop, []⟩
    | .ok effect => m.perform effect
  else m.done

/-- What is reported of an instruction before it is executed. -/
def trace (m : Machine) (pc : UInt32) (d : Decoded) : List Event :=
  if m.config.trace then [.executing pc d] else []

/-- Fetches and executes an instruction, up to what stops it. -/
def cycle (m : Machine) : Progress :=
  match m.fetch with
  | .error i => ⟨m, some (.interrupt i), []⟩
  | .ok word =>
    let pc := m.context.pc
    let m := m.advance
    match decode word with
    | none => ⟨m, some (.interrupt .illegalOpcode), []⟩
    | some d =>
      let reported := m.trace pc d
      let p := m.execute d
      { p with events := reported ++ p.events }

/-- Raises the interrupt that stopped an instruction, if one did. -/
def settle (p : Progress) : Report Unit :=
  match p.stop with
  | none => ⟨p.machine, .ok (), p.events⟩
  | some (.failure f) => ⟨p.machine, .error f, p.events⟩
  | some (.interrupt i) =>
    let r := p.machine.raise i
    { r with events := p.events ++ r.events }

/-- Whether the next instruction, if no interrupt comes first, reads from the console. -/
def readsNext (m : Machine) : Bool :=
  match m.fetch.toOption.bind decode with
  | some d => d.instruction = .getchar ∧ d.condition.holds m.context.flag
  | none => false

/-! ### Steps and runs -/

/-- What is reported of a failure: the failure and the active context. -/
def failureEvents (m : Machine) (f : Failure) : List Event :=
  [.failed f, .registers m.registerDump]

/-- The end of a step: a failure is reported, and a halted machine says so. -/
def conclude (r : Report Unit) : Report Status :=
  match r.answer with
  | .error f => ⟨r.machine, .error f, r.events ++ r.machine.failureEvents f⟩
  | .ok () => ⟨r.machine, .ok (if r.machine.halted then .halted else .running), r.events⟩

def step (m : Machine) : Report Status :=
  if m.halted then ⟨m, .ok .halted, []⟩
  else
    match m.control.checkpoint with
    | .suspended => ⟨m, .ok .suspended, []⟩
    | .terminate => ⟨m, .ok .terminated, []⟩
    | .proceed control batch =>
      let delivered := { m with control }.deliver batch
      match delivered.answer with
      | .error _ => conclude delivered
      | .ok () =>
        let r := settle delivered.machine.cycle
        conclude { r with events := delivered.events ++ r.events }

/-- Flushes the console at the end of a run. -/
def close (m : Machine) (reason : ExitReason) : Report ExitReason :=
  match m.console.flush with
  | .ok () => ⟨m, .ok reason, []⟩
  | .error e => ⟨m, .error (.stream e), m.failureEvents (.stream e)⟩

/-- The outcome of a run that ended for this reason; `reported` holds its events so far. -/
def finish (m : Machine) (reason : ExitReason) (reported : Array Event) :
    Machine × Outcome × Array Event :=
  let r := m.close reason
  let outcome := match r.answer with
    | .ok reason => .exited reason
    | .error f => .failed f
  (r.machine, outcome, reported ++ r.events)

/-- Runs at most `limit` steps. `reported` holds the events so far. -/
def runFrom (m : Machine) (reported : Array Event) : Nat → Machine × Outcome × Array Event
  | 0 => (m, .exhausted, reported)
  | limit + 1 =>
    let r := m.step
    let reported := reported ++ r.events
    match r.answer with
    | .error f => (r.machine, .failed f, reported)
    | .ok .running => r.machine.runFrom reported limit
    | .ok .halted => r.machine.finish .halted reported
    | .ok .terminated => r.machine.finish .terminated reported
    | .ok .suspended => (r.machine, .suspended, reported)

/-- Runs until the machine halts, fails or waits for its host, but at most `limit` steps. -/
def run (m : Machine) (limit : Nat) : Machine × Outcome × Array Event := m.runFrom #[] limit

end Machine

end RegisterMachine
