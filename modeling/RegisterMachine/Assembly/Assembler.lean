import RegisterMachine.Assembly.Emission
import RegisterMachine.Machine.Interrupt

/-!
The assembler. `Program.assemble` places a program at an address that is a multiple of four;
`Program.measure` tells its size, which does not depend on the address.
-/

namespace RegisterMachine

/-- Where a program stands if nothing else is said: right behind the interrupt vectors. -/
def programStart : UInt32 := UInt32.ofNat vectorsEnd

namespace Program

/-- The layout of a source text from an address on. -/
def layout (source : String) (origin : UInt32) : Except AssemblyError Layout := do
  Layout.ofStatements origin.toNat (← tokenize source)

/-- The number of bytes that a source text takes. -/
def measure (source : String) : Except AssemblyError Nat :=
  (layout source programStart).map Layout.size

/-- Assembles a source text for this address. -/
def assemble (source : String) (origin : UInt32) : Except AssemblyError Program :=
  if origin.toNat % 4 ≠ 0 then .error (.unaligned origin)
  else do (← layout source origin).program origin

end Program

end RegisterMachine
