import RegisterMachine.Memory.Basic
import RegisterMachine.Text.Hex

/-!
Typed pointers into main memory. A locked pointer keeps its element type.
-/

namespace RegisterMachine

inductive ElementKind where
  | byte
  | halfWord
  | word
  | doubleWord
  | bool
  | void
  deriving DecidableEq, Repr

namespace ElementKind

/-- The number of bytes of an element. -/
def size : ElementKind → Nat
  | .byte | .bool | .void => 1
  | .halfWord => 2
  | .word => 4
  | .doubleWord => 8

/-- An element as it is stored and read: a truth value is only ever zero or one. -/
def normalize (kind : ElementKind) (value : Nat) : Nat :=
  if kind = .bool then (if value = 0 then 0 else 1) else value

end ElementKind

structure Pointer where
  address : UInt32
  kind : ElementKind
  locked : Bool
  deriving DecidableEq, Repr

/-- The element type of the pointer at this address cannot change. -/
structure CastLocked where
  address : UInt32
  deriving DecidableEq, Repr

namespace CastLocked

def message (e : CastLocked) : String :=
  s!"pointer at {Text.hexMarked 0 e.address.toNat} is cast-locked"

end CastLocked

namespace Pointer

/-- Changes the element type. -/
def cast (p : Pointer) (kind : ElementKind) : Except CastLocked Pointer :=
  if p.locked ∧ kind ≠ p.kind then .error ⟨p.address⟩ else .ok { p with kind }

/-- The pointer to the element `count` elements further on; a negative count is taken modulo
`2 ^ 32`. -/
def offset (p : Pointer) (count : UInt32) : Pointer :=
  { p with address := p.address + count * UInt32.ofNat p.kind.size }

def read (p : Pointer) (m : Memory) : Except Interrupt Nat :=
  (m.read p.address p.kind.size).map fun bytes => p.kind.normalize (LittleEndian.value bytes)

/-- Writes a number, cut to the size of an element. -/
def write (p : Pointer) (m : Memory) (value : Nat) : Except Interrupt Memory :=
  m.write p.address (LittleEndian.bytes p.kind.size (p.kind.normalize value))

end Pointer

end RegisterMachine
