import RegisterMachine.Number.LittleEndian

/-!
The pseudo-random generator: a linear congruential generator on 64-bit states.
-/

namespace RegisterMachine

structure Generator where
  state : UInt64
  deriving DecidableEq, Repr

namespace Generator

def multiplier : UInt64 := 6364136223846793005

def increment : UInt64 := 1442695040888963407

def defaultSeed : UInt64 := 16238474862305244946

def next (g : Generator) : Generator := ⟨g.state * multiplier + increment⟩

/-- Draws 32 bits: the upper half of the next state. -/
def word (g : Generator) : UInt32 × Generator := ((g.next.state >>> 32).toUInt32, g.next)

/-- Draws 64 bits: two words, the low half first. -/
def long (g : Generator) : UInt64 × Generator :=
  let (low, g) := g.word
  let (high, g) := g.word
  (high.toUInt64 <<< 32 ||| low.toUInt64, g)

/-- Draws a float from zero up to one, by its bits: the upper 24 bits of the next state, over
`2 ^ 24`. -/
def float (g : Generator) : UInt32 × Generator :=
  let numerator := Float32.ofNat (g.next.state >>> 40).toNat
  ((numerator / Float32.ofNat (1 <<< 24)).toBits, g.next)

/-- Draws `count` bytes: eight at a time, then for five to seven more the first bytes of eight, and
for one to four more the first bytes of a word. -/
def bytes (g : Generator) (count : Nat) : List UInt8 × Generator :=
  if _h : 8 ≤ count then
    let (drawn, g) := g.long
    let (rest, g) := g.bytes (count - 8)
    (LittleEndian.bytes 8 drawn.toNat ++ rest, g)
  else if 4 < count then
    let (drawn, g) := g.long
    ((LittleEndian.bytes 8 drawn.toNat).take count, g)
  else if 0 < count then
    let (drawn, g) := g.word
    ((LittleEndian.bytes 4 drawn.toNat).take count, g)
  else ([], g)
termination_by count

end Generator

end RegisterMachine
