import RegisterMachine.Machine.Generator
import RegisterMachine.Memory.Basic

/-!
How a machine is to be set up.
-/

namespace RegisterMachine

structure Config where
  /-- The size of main memory in bytes. -/
  memorySize : Nat
  /-- The capacity of a call stack in words, where a program asks for no other. -/
  stackSize : Nat
  /-- Whether the built-in fault handlers are installed. -/
  defaultHandlers : Bool
  /-- Whether every instruction is reported. -/
  trace : Bool
  seed : UInt64
  deriving DecidableEq, Repr

inductive ConfigError where
  | memory (e : InvalidSize)
  | noStack
  deriving DecidableEq, Repr

namespace ConfigError

def message : ConfigError → String
  | .memory e => e.message
  | .noStack => "invalid configuration: stack size must be at least one word"

end ConfigError

namespace Config

def default : Config := ⟨64 * 1024, 64, true, false, Generator.defaultSeed⟩

def validate (c : Config) : Except ConfigError Unit :=
  if ¬Memory.ValidSize c.memorySize then .error (.memory ⟨c.memorySize⟩)
  else if c.stackSize = 0 then .error .noStack
  else .ok ()

end Config

end RegisterMachine
