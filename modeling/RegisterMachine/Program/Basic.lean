import RegisterMachine.Number.LittleEndian
import RegisterMachine.Program.LabelTable

/-!
Assembled programs: the bytes to be copied to a fixed place in memory and where to start in them.
-/

namespace RegisterMachine

structure Program where
  /-- The address of the first byte. -/
  origin : UInt32
  /-- The address of the first instruction. -/
  entry : UInt32
  /-- How many words of call stack the program asks for, if it does. -/
  stackSize : Option UInt32
  bytes : List UInt8
  labels : LabelTable
  deriving DecidableEq

namespace Program

def size (p : Program) : Nat := p.bytes.length

/-- The first address behind the program. -/
def stop (p : Program) : Nat := p.origin.toNat + p.size

/-- The whole words of the program. -/
def words (p : Program) : List UInt32 := LittleEndian.words p.bytes

/-- The address of a label in any case of its letters. -/
def label? (p : Program) (name : String) : Option UInt32 := p.labels.lookup? name

end Program

end RegisterMachine
