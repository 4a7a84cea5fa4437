import RegisterMachine.Machine.Config
import RegisterMachine.Machine.ContextTable
import RegisterMachine.Machine.Control
import RegisterMachine.Machine.Device
import RegisterMachine.Memory.Allocator

/-!
The machine: main memory with its allocator, contexts, devices, console, generator and the requests
of its host.
-/

namespace RegisterMachine

structure Machine where
  config : Config
  memory : Memory
  allocator : Allocator
  contexts : ContextTable
  devices : DeviceTable
  console : Console
  generator : Generator
  control : Control
  /-- Milliseconds since the machine was created, as its host last set them. -/
  clock : UInt32
  halted : Bool

/-- What a step fails with, and the host is told of. -/
inductive Failure where
  /-- A fault without a handler. -/
  | unhandled (i : Interrupt) (pc : UInt32)
  /-- An interrupt whose return address has no room on the call stack. -/
  | doubleFault (i : Interrupt) (pc : UInt32)
  /-- The vector of an interrupt cannot be read. -/
  | access (i : Interrupt)
  | unattached (slot : UInt32)
  | device (slot : UInt32) (e : DeviceError)
  | stream (e : StreamError)
  deriving DecidableEq, Repr

namespace Failure

def message : Failure → String
  | .unhandled i pc => s!"unhandled {i.text} at pc {Text.hexMarked 0 pc.toNat}"
  | .doubleFault i pc =>
    s!"double fault: {i.text} at pc {Text.hexMarked 0 pc.toNat} with a full call stack"
  | .access i => i.message
  | .unattached slot => (DeviceError.unattached slot).message
  | .device slot e => s!"peripheral {slot.toNat} failed: {e.message}"
  | .stream e => e.message

end Failure

namespace Machine

/-- A machine that has not been loaded. -/
def blank (config : Config) : Machine where
  config := config
  memory := .zeroed config.memorySize
  allocator := ⟨vectorsEnd, config.memorySize, []⟩
  contexts := .create config.stackSize
  devices := .empty
  console := .ofBytes []
  generator := ⟨config.seed⟩
  control := .idle
  clock := 0
  halted := false

/-- The active context. -/
def context (m : Machine) : Context := m.contexts.current

/-- Changes the active context. -/
def modifyContext (m : Machine) (f : Context → Context) : Machine :=
  { m with contexts := m.contexts.modify f }

/-- What the vector of an interrupt holds: its handler's address divided by four, or zero. -/
def vector (m : Machine) (i : Interrupt) : Except Interrupt UInt32 := m.memory.loadWord i.vector

def setVector (m : Machine) (i : Interrupt) (handler : UInt32) : Except Interrupt Machine :=
  (m.memory.storeWord i.vector handler).map fun memory => { m with memory }

/-- The memory that a load, store or copy means by a device number. -/
def space (m : Machine) (device : UInt32) : Except Failure Memory :=
  if device = DeviceTable.mainMemory then .ok m.memory
  else
    match m.devices.device? device with
    | some d => .ok d.memory
    | none => .error (.unattached device)

/-- The active context on one line. -/
def registerDump (m : Machine) : String :=
  let c := m.context
  let field (name value : String) : String := s!" {name}={value}"
  s!"context {m.contexts.activeId}"
    ++ field "pc" (Text.hexMarked 8 c.pc.toNat)
    ++ field "lr" (Text.hexMarked 8 c.lr.toNat)
    ++ field "st" (Text.hexMarked 8 c.st.toNat)
    ++ field "sp" (toString c.stack.size)
    ++ field "flag" (toString c.flag)
    ++ String.join ((List.finRange 8).map fun (r : Reg) =>
      field r.text (Text.hex 8 (c.registers.get r).toNat))

@[simp] theorem context_modifyContext (m : Machine) (f : Context → Context) :
    (m.modifyContext f).context = f m.context :=
  m.contexts.current_modify f

theorem modifyContext_modifyContext (m : Machine) (f g : Context → Context) :
    (m.modifyContext f).modifyContext g = m.modifyContext fun c => g (f c) :=
  congrArg (fun contexts => { m with contexts }) (m.contexts.modify_modify f g)

theorem modifyContext_congr {m : Machine} {f g : Context → Context}
    (h : f m.context = g m.context) : m.modifyContext f = m.modifyContext g :=
  congrArg (fun contexts => { m with contexts }) (m.contexts.modify_congr h)

theorem modifyContext_eq_self {m : Machine} {f : Context → Context}
    (h : f m.context = m.context) : m.modifyContext f = m :=
  congrArg (fun contexts => { m with contexts }) (ContextTable.modify_eq_self h)

end Machine

end RegisterMachine
