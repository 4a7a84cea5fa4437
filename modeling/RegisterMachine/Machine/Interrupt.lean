/-!
Interrupts and their vectors. The first 96 bytes of memory are 24 words, one for each vector; a
vector holds the address of its handler divided by four, or zero.
-/

namespace RegisterMachine

inductive Interrupt where
  | divideByZero
  | illegalOpcode
  | outOfMemory
  | stackOverflow
  | mathError
  | segmentationFault
  | keyPress
  | peripheralInput
  | peripheralOutput
  | generic
  | serial0
  | serial1
  | raster
  deriving DecidableEq, Repr

/-- The number of vectors. -/
def vectorCount : Nat := 24

/-- The first address behind the vectors, where programs may stand. -/
def vectorsEnd : Nat := 4 * vectorCount

namespace Interrupt

def all : List Interrupt :=
  [.divideByZero, .illegalOpcode, .outOfMemory, .stackOverflow, .mathError, .segmentationFault,
    .keyPress, .peripheralInput, .peripheralOutput, .generic, .serial0, .serial1, .raster]

/-- The number of the vector. -/
def index : Interrupt → Nat
  | .divideByZero => 0
  | .illegalOpcode => 1
  | .outOfMemory => 2
  | .stackOverflow => 3
  | .mathError => 4
  | .segmentationFault => 5
  | .keyPress => 6
  | .peripheralInput => 7
  | .peripheralOutput => 8
  | .generic => 9
  | .serial0 => 10
  | .serial1 => 11
  | .raster => 16

/-- The interrupt of a vector, where it has one. -/
def ofIndex? (index : Nat) : Option Interrupt := all.find? fun i => i.index == index

/-- The address of the vector. -/
def vector (i : Interrupt) : UInt32 := UInt32.ofNat (4 * i.index)

/-- Faults stop a machine that has no handler for them; other interrupts are then dropped. -/
def isFault (i : Interrupt) : Bool := i.index ≤ 5

def faults : List Interrupt := all.filter isFault

def name : Interrupt → String
  | .divideByZero => "division by zero"
  | .illegalOpcode => "illegal opcode"
  | .outOfMemory => "out of memory"
  | .stackOverflow => "stack overflow"
  | .mathError => "math error"
  | .segmentationFault => "segmentation fault"
  | .keyPress => "key press"
  | .peripheralInput => "peripheral input"
  | .peripheralOutput => "peripheral output"
  | .generic => "interrupt"
  | .serial0 => "serial 0"
  | .serial1 => "serial 1"
  | .raster => "raster"

def text (i : Interrupt) : String := s!"{i.name} (vector {i.index})"

/-- The interrupt as an error. -/
def message (i : Interrupt) : String := s!"fault: {i.text}"

/-- What the built-in handler prints. -/
def notice : Interrupt → String
  | .divideByZero => "?DIVISION BY ZERO ERROR"
  | .illegalOpcode => "?ILLEGAL OPCODE ERROR"
  | .outOfMemory => "?OUT OF MEMORY ERROR"
  | .stackOverflow => "?STACK OVERFLOW ERROR"
  | .mathError => "?MATH ERROR"
  | .segmentationFault => "?SEGMENTATION FAULT"
  | _ => "?INTERRUPT"

theorem ofIndex?_index (i : Interrupt) : ofIndex? i.index = some i := by
  cases i <;> decide

theorem index_lt (i : Interrupt) : i.index < vectorCount := by
  cases i <;> decide

end Interrupt

end RegisterMachine
