import RegisterMachine.Assembly.Assembler
import RegisterMachine.Machine.Basic
import RegisterMachine.Report.Event

/-!
Loading programs and setting a machine up. A program takes its bytes and one word of zeros behind
them, which halts a program that runs off its end.
-/

namespace RegisterMachine

namespace Machine

/-- A machine after an attempt to load something, and what there is to report. -/
abbrev Loading (α : Type) := Machine × Except LoadError α × List Event

/-- What a program takes: its bytes and the word behind them, if that ends below `2 ^ 32`. Where the
bytes end is counted in 32 bits, so that a program which runs past the last address takes an empty
block, which nobody gets. One whose length is no 32-bit number, with the word, takes none. -/
def footprint? (p : Program) : Option Block :=
  let stop := p.stop % UInt32.size
  if p.size + 4 ≤ UInt32.size ∧ stop + 4 < UInt32.size then some ⟨p.origin.toNat, stop + 4⟩
  else none

/-- Claims the room for a program and copies it there. -/
def place (m : Machine) (p : Program) : Machine × Except LoadError Unit :=
  match footprint? p with
  | none => (m, .error (.allocator (.outOfMemory p.size)))
  | some block =>
    match m.allocator.claim block with
    | .error e => (m, .error (.allocator e))
    | .ok allocator =>
      let m := { m with allocator }
      match m.memory.write p.origin p.bytes with
      | .error i => (m, .error (.access i))
      | .ok memory =>
        let m := { m with memory }
        match m.memory.storeWord (UInt32.ofNat p.stop) 0 with
        | .error i => (m, .error (.access i))
        | .ok memory => ({ m with memory }, .ok ())

/-- The call-stack capacity that a program gets. -/
def capacityFor (m : Machine) (p : Program) : Nat :=
  match p.stackSize with
  | some words => words.toNat
  | none => m.config.stackSize

/-- A fresh context that is about to run a program. -/
def contextFor (m : Machine) (p : Program) : Context :=
  { Context.fresh (m.capacityFor p) with pc := p.entry, st := p.origin }

/-- Loads a program into a context, which is created if it does not exist. -/
def loadInto (m : Machine) (id : Nat) (p : Program) : Loading Unit :=
  match m.contexts.ensure id with
  | .error e => (m, .error (.context e), [])
  | .ok contexts =>
    match { m with contexts }.place p with
    | (m, .error e) => (m, .error e, [])
    | (m, .ok ()) =>
      ({ m with contexts := m.contexts.set id (m.contextFor p), halted := false }, .ok (),
        [.loaded p.size p.origin id p.entry (m.capacityFor p)])

/-- Loads a program into the active context. -/
def load (m : Machine) (p : Program) : Loading Unit := m.loadInto m.contexts.activeId p

/-- Assembles a source text for the first place in memory where it fits. -/
def assemble (m : Machine) (source : String) : Except LoadError Program := do
  let size ← (Program.measure source).mapError .source
  let origin ← (m.allocator.fit (size + 4)).mapError .allocator
  (Program.assemble source (UInt32.ofNat origin)).mapError .source

/-- Assembles a source text for where it fits and loads it into a context. -/
def loadSourceInto (m : Machine) (id : Nat) (source : String) : Loading Program :=
  match m.assemble source with
  | .error e => (m, .error e, [])
  | .ok p =>
    match m.loadInto id p with
    | (m, answer, events) => (m, answer.map fun _ => p, events)

/-- Assembles a source text for where it fits and loads it into the active context. -/
def loadSource (m : Machine) (source : String) : Loading Program :=
  m.loadSourceInto m.contexts.activeId source

/-! ### The built-in fault handlers -/

namespace Handler

/-- The label of a fault's handler. -/
def label (i : Interrupt) : String := s!"__fault_{i.index}"

/-- The declaration of what a handler prints. -/
def declaration (i : Interrupt) : String :=
  s!"string __msg_{i.index} \"{i.notice}\\n\";\n"

/-- A handler prints its notice byte by byte and halts. It pushes nothing, so that it also runs on a
full call stack. -/
def code (i : Interrupt) : String :=
  let n := toString i.index
  s!":{label i};\n"
    ++ s!"loadwordi r1, @__msg_{n};\n"
    ++ s!":__print_{n};\n"
    ++ "loadbyte r2, r1, 0;\n"
    ++ "cmp r2, 0;\n"
    ++ s!"jz @__done_{n};\n"
    ++ "putchar r2;\n"
    ++ "inc r1;\n"
    ++ s!"jmp @__print_{n};\n"
    ++ s!":__done_{n};\n"
    ++ "halt;\n"

/-- The source text of all handlers. -/
def source : String :=
  ".data;\n" ++ String.join (Interrupt.faults.map declaration)
    ++ ".code;\n" ++ String.join (Interrupt.faults.map code)

end Handler

/-- Sets the vectors of these faults to their labels in a program. -/
def setVectors (m : Machine) (p : Program) : List Interrupt → Machine × Except LoadError Unit
  | [] => (m, .ok ())
  | i :: rest =>
    match p.label? (Handler.label i) with
    | none => (m, .error (.label (.undefined (Handler.label i))))
    | some address =>
      match m.setVector i (address / 4) with
      | .error j => (m, .error (.access j))
      | .ok m => m.setVectors p rest

/-- Where the handlers go, with the word behind them: to the end of memory. -/
def handlerOrigin (m : Machine) : Except LoadError UInt32 := do
  let size ← (Program.measure Handler.source).mapError .source
  if vectorsEnd + (size + 4) ≤ m.memory.size then .ok (UInt32.ofNat (m.memory.size - (size + 4)))
  else .error (.allocator (.outOfMemory (size + 4)))

/-- Assembles the handlers for the end of memory. -/
def assembleHandlers (m : Machine) : Except LoadError Program := do
  let origin ← m.handlerOrigin
  (Program.assemble Handler.source origin).mapError .source

/-- Places the handlers, once they are assembled, and sets their vectors. -/
def install (m : Machine) : Except LoadError Program → Machine × Except LoadError UInt32
  | .error e => (m, .error e)
  | .ok p =>
    match m.place p with
    | (m, .error e) => (m, .error e)
    | (m, .ok ()) =>
      match m.setVectors p Interrupt.faults with
      | (m, .error e) => (m, .error e)
      | (m, .ok ()) => (m, .ok p.origin)

/-- Installs the handlers at the end of memory. -/
def installHandlers (m : Machine) : Machine × Except LoadError UInt32 :=
  m.install m.assembleHandlers

/-- Sets up a machine, with the built-in handlers unless the configuration leaves them out. -/
def create (config : Config) : Except ConfigError (Machine × List Event) :=
  match config.validate with
  | .error e => .error e
  | .ok () =>
    if config.defaultHandlers then
      match (blank config).installHandlers with
      | (m, .ok origin) => .ok (m, [.handlersInstalled origin])
      | (m, .error e) => .ok (m, [.handlersMissing e])
    else .ok (blank config, [])

end Machine

end RegisterMachine
