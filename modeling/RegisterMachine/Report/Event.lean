import RegisterMachine.Assembly.AssemblyError
import RegisterMachine.Instruction.Word
import RegisterMachine.Machine.Basic
import RegisterMachine.Report.Level

/-!
What a machine reports of its work, and how it is worded.
-/

namespace RegisterMachine

/-- Why a program could not be loaded. -/
inductive LoadError where
  | source (e : AssemblyError)
  | context (e : InvalidContext)
  | allocator (e : AllocatorError)
  | access (i : Interrupt)
  | label (e : LabelError)
  deriving DecidableEq, Repr

namespace LoadError

def message : LoadError → String
  | .source e => e.message
  | .context e => e.message
  | .allocator e => e.message
  | .access i => i.message
  | .label e => e.message

end LoadError

inductive Event where
  | handlersInstalled (origin : UInt32)
  | handlersMissing (e : LoadError)
  | loaded (size : Nat) (origin : UInt32) (id : Nat) (entry : UInt32) (capacity : Nat)
  | contextCreated (id : Nat)
  | yielded (id : Nat)
  /-- A raised interrupt without a handler, which is no fault. -/
  | dropped (i : Interrupt)
  /-- An `INT` on a vector that has no interrupt. -/
  | ignored (vector : UInt32)
  | executing (pc : UInt32) (d : Decoded)
  | failed (f : Failure)
  | registers (dump : String)
  deriving DecidableEq, Repr

namespace Event

def level : Event → Level
  | .loaded .. => .info
  | .handlersMissing _ => .warn
  | .failed _ | .registers _ => .error
  | _ => .debug

def text : Event → String
  | .handlersInstalled origin =>
    s!"default fault handlers installed at {Text.hexMarked 0 origin.toNat}"
  | .handlersMissing e => s!"default fault handlers not installed: {e.message}"
  | .loaded size origin id entry capacity =>
    s!"loaded {size} bytes at {Text.hexMarked 0 origin.toNat} into context {id} "
      ++ s!"(entry {Text.hexMarked 0 entry.toNat}, stack {capacity})"
  | .contextCreated id => s!"created context {id}"
  | .yielded id => s!"context {id} yielded"
  | .dropped i => s!"dropped {i.text}: no handler installed"
  | .ignored vector =>
    s!"{Instruction.int.mnemonic} {vector.toNat}: vector has no condition, ignored"
  | .executing pc d => s!"{Text.hexMarked 6 pc.toNat}: {d.text}"
  | .failed f => f.message
  | .registers dump => dump

end Event

end RegisterMachine
