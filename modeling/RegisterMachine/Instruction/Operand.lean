/-!
Registers, operands and the kinds of operand an instruction takes. An operand that is only read may
be the constant zero instead of a register.
-/

namespace RegisterMachine

/-- One of the eight registers, by its place in the register file. -/
abbrev Reg := Fin 8

namespace Reg

/-- The register that programs write as `r` and this number, from one to eight. -/
def ofNumber? (number : Nat) : Option Reg :=
  if h : 1 ≤ number ∧ number ≤ 8 then some ⟨number - 1, by omega⟩ else none

/-- The register in the low three bits of a field. -/
def ofField (field : UInt32) : Reg := ⟨field.toNat % 8, Nat.mod_lt _ (by decide)⟩

def number (r : Reg) : Nat := r.val + 1

/-- The three bits that stand for the register in a word. -/
def field (r : Reg) : UInt32 := UInt32.ofNat r.val

def text (r : Reg) : String := "r" ++ toString r.number

theorem ofNumber?_number (r : Reg) : ofNumber? r.number = some r := by
  revert r
  decide

theorem ofField_field (r : Reg) : ofField r.field = r := by
  revert r
  decide

end Reg

/-- What a program may read: a register or the constant zero. -/
inductive Operand where
  | register (r : Reg)
  | zero
  deriving DecidableEq, Repr

namespace Operand

def text : Operand → String
  | .register r => r.text
  | .zero => "0"

/-- The register field of the operand; the constant leaves it clear. -/
def field : Operand → UInt32
  | .register r => r.field
  | .zero => 0

end Operand

/-- The kinds of operand. The first three take a register field, the others an immediate. -/
inductive OperandKind where
  /-- A register that is written. -/
  | dst
  /-- A register or the constant zero, only read. -/
  | src
  /-- A register that is only read and has no encoding of zero. -/
  | reg
  | imm8
  | imm16
  /-- A distance or address in words. -/
  | off22
  /-- The number of a device or an interrupt. -/
  | irq
  deriving DecidableEq, Repr

namespace OperandKind

def isRegister : OperandKind → Bool
  | .dst | .src | .reg => true
  | .imm8 | .imm16 | .off22 | .irq => false

/-- How many bits an immediate of this kind has. -/
def width : OperandKind → Nat
  | .dst | .src | .reg => 0
  | .imm8 | .irq => 8
  | .imm16 => 16
  | .off22 => 22

/-- The bits of the word that an immediate of this kind takes. -/
def mask (kind : OperandKind) : UInt32 := UInt32.ofNat ((1 <<< kind.width) - 1)

def text : OperandKind → String
  | .dst => "destination register"
  | .src => "register or 0"
  | .reg => "register"
  | .imm8 => "byte"
  | .imm16 => "halfword"
  | .off22 => "word offset"
  | .irq => "device index"

end OperandKind

end RegisterMachine
