import RegisterMachine.Instruction.Operand
import RegisterMachine.Machine.Interrupt

/-!
Execution contexts: registers, compare flag, program counter and call stack. A call stack has two
words beyond its capacity that only the delivery of interrupts may use.
-/

namespace RegisterMachine

/-- Eight words, which instructions read as integers or as floats. -/
abbrev Registers := Vector UInt32 8

/-- The words on the stack stand with the top one first. -/
structure CallStack where
  words : List UInt32
  capacity : Nat
  deriving DecidableEq, Repr

namespace CallStack

/-- How many words the delivery of interrupts may push beyond the capacity. -/
def reserve : Nat := 2

def empty (capacity : Nat) : CallStack := ⟨[], capacity⟩

def size (s : CallStack) : Nat := s.words.length

def push (s : CallStack) (word : UInt32) : Except Interrupt CallStack :=
  if s.size < s.capacity then .ok { s with words := word :: s.words } else .error .stackOverflow

/-- Pushes the return address of an interrupt, into the reserve if need be. -/
def pushReserved? (s : CallStack) (word : UInt32) : Option CallStack :=
  if s.size < s.capacity + reserve then some { s with words := word :: s.words } else none

/-- An empty stack overflows too when it is popped. -/
def pop (s : CallStack) : Except Interrupt (UInt32 × CallStack) :=
  match s.words with
  | [] => .error .stackOverflow
  | word :: rest => .ok (word, { s with words := rest })

end CallStack

structure Context where
  registers : Registers
  /-- The result of the last comparison: negative, zero or positive. -/
  flag : Int
  /-- The address of the next instruction. -/
  pc : UInt32
  /-- The link register. -/
  lr : UInt32
  /-- Where the program that was loaded into the context begins. -/
  st : UInt32
  stack : CallStack
  deriving DecidableEq, Repr

namespace Context

def fresh (capacity : Nat) : Context := ⟨Vector.replicate 8 0, 0, 0, 0, 0, .empty capacity⟩

/-- The value of an operand. -/
def read (c : Context) : Operand → UInt32
  | .register r => c.registers.get r
  | .zero => 0

def assign (c : Context) (r : Reg) (value : UInt32) : Context :=
  { c with registers := c.registers.set r value r.isLt }

def jump (c : Context) (target : UInt32) : Context := { c with pc := target }

def push (c : Context) (word : UInt32) : Except Interrupt Context :=
  (c.stack.push word).map fun stack => { c with stack }

/-- Pushes the address of the next instruction and jumps. -/
def call (c : Context) (target : UInt32) : Except Interrupt Context :=
  (c.push c.pc).map fun c => c.jump target

def pop (c : Context) : Except Interrupt (UInt32 × Context) :=
  c.stack.pop.map fun (word, stack) => (word, { c with stack })

end Context

end RegisterMachine
