import RegisterMachine.Instruction.Condition
import RegisterMachine.Instruction.Operand

/-!
The instruction set. Every instruction is one word:

```
31..29     28..25  24..22  21..19  18..16  15..13  12..10  9..0
condition  group   slot 0  slot 1  slot 2  slot 3  slot 4  operation or immediate
```

A register is three bits in its slot. The constant zero is a bit of its own: bits 7 to 9 stand for
slots 0 to 2 in group 0, bits 8 and 9 for slots 0 and 1 in group 1. Jumps keep their variant in the
condition bits.
-/

namespace RegisterMachine

/-- The bits of a word that an instruction fixes: it is meant when `word &&& mask = value`. -/
structure Selector where
  mask : UInt32
  value : UInt32
  deriving DecidableEq, Repr

namespace Selector

/-- A value in the bits of a word from `low` on. -/
def field (low value : UInt32) : UInt32 := value <<< low

def conditionMask : UInt32 := field 29 7

def groupMask : UInt32 := field 25 15

def groupBits (group : UInt32) : UInt32 := field 25 group

/-- Group 0: an operation on registers, by its seven-bit number. -/
def alu (operation : UInt32) : Selector := ⟨groupMask ||| 0x7F, operation⟩

/-- A group that is one instruction. -/
def group (number : UInt32) : Selector := ⟨groupMask, groupBits number⟩

/-- Group 1 comparison: bit 1 marks a float on the left, bit 0 a float on the right. -/
def compare (mode : UInt32) : Selector := ⟨groupMask ||| field 16 7 ||| 3, groupBits 1 ||| mode⟩

/-- Group 1 transfer of an immediate, by its kind and variant. -/
def transfer (kind variant : UInt32) : Selector :=
  ⟨groupMask ||| field 16 7, groupBits 1 ||| field 17 kind ||| field 16 variant⟩

/-- Group 8 jump, by the variant in the condition bits. -/
def jump (variant : UInt32) : Selector :=
  ⟨conditionMask ||| groupMask, field 29 variant ||| groupBits 8⟩

/-- Group 15 call of the surroundings, by bits 8 to 21. -/
def system (number : UInt32) : Selector :=
  ⟨groupMask ||| field 8 0x3FFF, groupBits 15 ||| field 8 number⟩

/-- Group 15 call that fixes its device number too. -/
def systemOn (number device : UInt32) : Selector :=
  ⟨groupMask ||| field 8 0x3FFF ||| 0xFF, groupBits 15 ||| field 8 number ||| device⟩

/-- Group 15 interrupt: all of bits 8 to 21 and all of slot 0 are set. -/
def interrupt : Selector :=
  ⟨groupMask ||| field 8 0x3FFF ||| field 22 7,
    groupBits 15 ||| field 8 0x3FFF ||| field 22 7⟩

end Selector

inductive Instruction where
  | halt | add | sub | mul | div | pow | mod
  | shl | shr | ushr | and | or | xor
  | abs | sin | cos | tan | floor | ceil | round | log
  | rndi | rnd | sgn | sqrt | cbrt | inv | rad | not
  | mov | xchg | inc | dec | malloc | ftoi | itof | calloc | free
  | addInt | subInt | mulInt | divInt | modInt
  | ctxsw | yield | getchar | putchar | jsr | ret
  | loadByte | storeByte | loadHword | storeHword | loadWord | storeWord | memcpy
  | cmp | cmpIf | cmpFi | cmpFf
  | loadByteI | storeByteI | loadHwordI | storeHwordI | loadWordILo | loadWordIHi
  | loadWordIMem | storeWordIMem | push | pop | pushWordI | popWordI
  | jmp | jz | jnz | jgt | jls | jfw | jbw | jsrI
  | uptime | call | memSize | int
  deriving DecidableEq, Repr

/-- An instruction's name, the bits it fixes and the operands it takes, registers first. -/
structure Entry where
  mnemonic : String
  selector : Selector
  operands : List OperandKind
  deriving DecidableEq, Repr

namespace Instruction

open Selector OperandKind

/-- Every instruction. `UPTIME` stands before `MEMSIZE`, whose words for device 255 it takes. -/
def all : List Instruction :=
  [.halt, .add, .sub, .mul, .div, .pow, .mod,
    .shl, .shr, .ushr, .and, .or, .xor,
    .abs, .sin, .cos, .tan, .floor, .ceil, .round, .log,
    .rndi, .rnd, .sgn, .sqrt, .cbrt, .inv, .rad, .not,
    .mov, .xchg, .inc, .dec, .malloc, .ftoi, .itof, .calloc, .free,
    .addInt, .subInt, .mulInt, .divInt, .modInt,
    .ctxsw, .yield, .getchar, .putchar, .jsr, .ret,
    .loadByte, .storeByte, .loadHword, .storeHword, .loadWord, .storeWord, .memcpy,
    .cmp, .cmpIf, .cmpFi, .cmpFf,
    .loadByteI, .storeByteI, .loadHwordI, .storeHwordI, .loadWordILo, .loadWordIHi,
    .loadWordIMem, .storeWordIMem, .push, .pop, .pushWordI, .popWordI,
    .jmp, .jz, .jnz, .jgt, .jls, .jfw, .jbw, .jsrI,
    .uptime, .call, .memSize, .int]

def entry : Instruction → Entry
  -- group 0: float arithmetic
  | .halt => ⟨"HALT", alu 0, []⟩
  | .add => ⟨"ADD", alu 1, [dst, src, src]⟩
  | .sub => ⟨"SUB", alu 2, [dst, src, src]⟩
  | .mul => ⟨"MUL", alu 3, [dst, src, src]⟩
  | .div => ⟨"DIV", alu 4, [dst, src, src]⟩
  | .pow => ⟨"POW", alu 5, [dst, src, src]⟩
  | .mod => ⟨"MOD", alu 6, [dst, src, src]⟩
  -- group 0: bits
  | .shl => ⟨"SHL", alu 7, [dst, src, src]⟩
  | .shr => ⟨"SHR", alu 8, [dst, src, src]⟩
  | .ushr => ⟨"USHR", alu 9, [dst, src, src]⟩
  | .and => ⟨"AND", alu 10, [dst, src, src]⟩
  | .or => ⟨"OR", alu 11, [dst, src, src]⟩
  | .xor => ⟨"XOR", alu 12, [dst, src, src]⟩
  -- group 0: functions of one float
  | .abs => ⟨"ABS", alu 16, [dst, src]⟩
  | .sin => ⟨"SIN", alu 17, [dst, src]⟩
  | .cos => ⟨"COS", alu 18, [dst, src]⟩
  | .tan => ⟨"TAN", alu 19, [dst, src]⟩
  | .floor => ⟨"FLOOR", alu 20, [dst, src]⟩
  | .ceil => ⟨"CEIL", alu 21, [dst, src]⟩
  | .round => ⟨"ROUND", alu 22, [dst, src]⟩
  | .log => ⟨"LOG", alu 23, [dst, src]⟩
  | .rndi => ⟨"RNDI", alu 24, [dst]⟩
  | .rnd => ⟨"RND", alu 25, [dst]⟩
  | .sgn => ⟨"SGN", alu 26, [dst, src]⟩
  | .sqrt => ⟨"SQRT", alu 27, [dst, src]⟩
  | .cbrt => ⟨"CBRT", alu 28, [dst, src]⟩
  | .inv => ⟨"INV", alu 29, [dst, src]⟩
  | .rad => ⟨"RAD", alu 30, [dst, src]⟩
  | .not => ⟨"NOT", alu 31, [dst, src]⟩
  -- group 0: transfer and allocation
  | .mov => ⟨"MOV", alu 32, [dst, src]⟩
  | .xchg => ⟨"XCHG", alu 33, [dst, dst]⟩
  | .inc => ⟨"INC", alu 34, [dst]⟩
  | .dec => ⟨"DEC", alu 35, [dst]⟩
  | .malloc => ⟨"MALLOC", alu 36, [dst, src]⟩
  | .ftoi => ⟨"FTOI", alu 37, [dst, src]⟩
  | .itof => ⟨"ITOF", alu 38, [dst, src]⟩
  | .calloc => ⟨"CALLOC", alu 39, [dst, src]⟩
  | .free => ⟨"FREE", alu 40, [src, src]⟩
  -- group 0: integer arithmetic
  | .addInt => ⟨"ADDINT", alu 41, [dst, src, src]⟩
  | .subInt => ⟨"SUBINT", alu 42, [dst, src, src]⟩
  | .mulInt => ⟨"MULINT", alu 43, [dst, src, src]⟩
  | .divInt => ⟨"DIVINT", alu 44, [dst, src, src]⟩
  | .modInt => ⟨"MODINT", alu 45, [dst, src, src]⟩
  -- group 0: contexts, console and subroutines
  | .ctxsw => ⟨"CTXSW", alu 57, [src]⟩
  | .yield => ⟨"YIELD", alu 58, []⟩
  | .getchar => ⟨"GETCHAR", alu 59, [dst]⟩
  | .putchar => ⟨"PUTCHAR", alu 60, [src]⟩
  | .jsr => ⟨"JSR", alu 62, [src]⟩
  | .ret => ⟨"RETURN", alu 63, []⟩
  -- group 0: memory, as value, address and device
  | .loadByte => ⟨"LOADBYTE", alu 64, [dst, src, src]⟩
  | .storeByte => ⟨"STOREBYTE", alu 65, [src, src, src]⟩
  | .loadHword => ⟨"LOADHWORD", alu 66, [dst, src, src]⟩
  | .storeHword => ⟨"STOREHWORD", alu 67, [src, src, src]⟩
  | .loadWord => ⟨"LOADWORD", alu 68, [dst, src, src]⟩
  | .storeWord => ⟨"STOREWORD", alu 69, [src, src, src]⟩
  | .memcpy => ⟨"MEMCPY", alu 72, [src, src, src, reg, reg]⟩
  -- group 1: comparisons and immediates
  | .cmp => ⟨"CMP", compare 0, [src, src]⟩
  | .cmpIf => ⟨"CMPIF", compare 1, [src, src]⟩
  | .cmpFi => ⟨"CMPFI", compare 2, [src, src]⟩
  | .cmpFf => ⟨"CMPFF", compare 3, [src, src]⟩
  | .loadByteI => ⟨"LOADBYTEI", transfer 1 0, [dst, imm8]⟩
  | .storeByteI => ⟨"STOREBYTEI", transfer 1 1, [reg, imm8]⟩
  | .loadHwordI => ⟨"LOADHWORDI", transfer 2 0, [dst, imm16]⟩
  | .storeHwordI => ⟨"STOREHWORDI", transfer 2 1, [reg, imm16]⟩
  | .loadWordILo => ⟨"LOADWORDILO", transfer 3 0, [dst, imm16]⟩
  | .loadWordIHi => ⟨"LOADWORDIHI", transfer 3 1, [dst, imm16]⟩
  -- groups 2 to 7: words at fixed places and the call stack
  | .loadWordIMem => ⟨"LOADWORDIMEM", group 2, [dst, off22]⟩
  | .storeWordIMem => ⟨"STOREWORDIMEM", group 3, [reg, off22]⟩
  | .push => ⟨"PUSH", group 4, [reg]⟩
  | .pop => ⟨"POP", group 5, [dst]⟩
  | .pushWordI => ⟨"PUSHWORDI", group 6, [off22]⟩
  | .popWordI => ⟨"POPWORDI", group 7, []⟩
  -- groups 8 and 9: jumps and calls
  | .jmp => ⟨"JMP", jump 0, [off22]⟩
  | .jz => ⟨"JZ", jump 1, [off22]⟩
  | .jnz => ⟨"JNZ", jump 2, [off22]⟩
  | .jgt => ⟨"JGT", jump 3, [off22]⟩
  | .jls => ⟨"JLS", jump 4, [off22]⟩
  | .jfw => ⟨"JFW", jump 5, [off22]⟩
  | .jbw => ⟨"JBW", jump 6, [off22]⟩
  | .jsrI => ⟨"JSRI", group 9, [off22]⟩
  -- group 15: devices and interrupts
  | .uptime => ⟨"UPTIME", systemOn 1 0xFF, [dst]⟩
  | .call => ⟨"CALL", system 0, [reg, irq]⟩
  | .memSize => ⟨"MEMSIZE", system 1, [dst, irq]⟩
  | .int => ⟨"INT", interrupt, [irq]⟩

def mnemonic (i : Instruction) : String := i.entry.mnemonic

def selector (i : Instruction) : Selector := i.entry.selector

def operands (i : Instruction) : List OperandKind := i.entry.operands

/-- The group number in the fixed bits. -/
def group (i : Instruction) : UInt32 := (i.selector.value &&& groupMask) >>> 25

/-- Whether the condition bits hold a condition; jumps use them for themselves. -/
def isConditional (i : Instruction) : Bool := i.selector.mask &&& conditionMask == 0

/-- Where the register field of a slot begins. -/
def slotShift (slot : Nat) : UInt32 := UInt32.ofNat (22 - 3 * slot)

/-- The bits of a slot's register field. -/
def slotMask (slot : Nat) : UInt32 := field (slotShift slot) 7

/-- The bit that makes a slot the constant zero, where the group has one. -/
def zeroBit? (i : Instruction) (slot : Nat) : Option UInt32 :=
  if i.group = 0 ∧ slot ≤ 2 then some (field (UInt32.ofNat (7 + slot)) 1)
  else if i.group = 1 ∧ slot ≤ 1 then some (field (UInt32.ofNat (8 + slot)) 1)
  else none

/-- The bits that an operand of this kind in this slot may set. -/
def operandBits (i : Instruction) (slot : Nat) : OperandKind → UInt32
  | .src => slotMask slot ||| (i.zeroBit? slot).getD 0
  | .dst | .reg => slotMask slot
  | kind => kind.mask

/-- Every bit that a word of this instruction may set. -/
def usedBits (i : Instruction) : UInt32 :=
  i.operands.zipIdx.foldl (fun bits (kind, slot) => bits ||| i.operandBits slot kind)
    (conditionMask ||| groupMask ||| i.selector.mask)

/-- The kind of the immediate, for an instruction that has one. -/
def immediateKind? (i : Instruction) : Option OperandKind :=
  i.operands.find? fun kind => !kind.isRegister

theorem mem_all (i : Instruction) : i ∈ all := by
  cases i <;> decide

end Instruction

/-- What the words of an instruction look like. -/
structure Pattern where
  instruction : Instruction
  selector : Selector
  usedBits : UInt32
  deriving DecidableEq, Repr

namespace Pattern

def ofInstruction (i : Instruction) : Pattern := ⟨i, i.selector, i.usedBits⟩

/-- The patterns of all instructions, which words are compared with in this order. -/
def all : List Pattern := Instruction.all.map ofInstruction

/-- Whether a word has the bits that the instruction fixes. -/
def fits (p : Pattern) (word : UInt32) : Bool := word &&& p.selector.mask == p.selector.value

/-- The first instruction whose pattern a word fits is the first one whose fixed bits it has. -/
theorem find?_all (word : UInt32) :
    all.find? (·.fits word) =
      (Instruction.all.find? fun i => word &&& i.selector.mask == i.selector.value).map
        ofInstruction := by
  rw [all, List.find?_map]
  rfl

end Pattern

end RegisterMachine
