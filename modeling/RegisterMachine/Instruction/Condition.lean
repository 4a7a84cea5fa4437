/-!
Execution conditions: a test of the compare flag that sits in the three top bits of most words.
-/

namespace RegisterMachine

inductive Condition where
  | always
  | zero
  | nonZero
  | greater
  | less
  deriving DecidableEq, Repr

namespace Condition

def all : List Condition := [.always, .zero, .nonZero, .greater, .less]

/-- What an instruction's name ends in to ask for the condition. -/
def suffix : Condition → String
  | .always => ""
  | .zero => "Z"
  | .nonZero => "NZ"
  | .greater => "GT"
  | .less => "LS"

/-- The number of the condition in its field. -/
def code : Condition → UInt32
  | .always => 0
  | .zero => 1
  | .nonZero => 2
  | .greater => 3
  | .less => 4

/-- The condition in the low three bits of `field`; five to seven are none. -/
def ofCode? (field : UInt32) : Option Condition :=
  all.find? fun c => c.code == field &&& 7

/-- The field in its place in the word. -/
def bits (c : Condition) : UInt32 := c.code <<< 29

/-- Whether a compare flag meets the condition. -/
def holds (flag : Int) : Condition → Bool
  | .always => true
  | .zero => flag == 0
  | .nonZero => flag != 0
  | .greater => 0 < flag
  | .less => flag < 0

theorem mem_all (c : Condition) : c ∈ all := by
  cases c <;> decide

theorem ofCode?_code (c : Condition) : ofCode? c.code = some c := by
  cases c <;> decide

end Condition

end RegisterMachine
