import RegisterMachine.Instruction.OperandError
import RegisterMachine.Instruction.Table
import RegisterMachine.Number.LittleEndian
import RegisterMachine.Text.Hex

/-!
Instructions as words: `Instruction.encode` writes one, `decode` reads one and `Decoded.text` prints
it. A word is read only if every bit that its instruction does not use is clear.
-/

namespace RegisterMachine

/-- An operand as the encoder takes it. -/
inductive Arg where
  | operand (o : Operand)
  | immediate (value : UInt32)
  deriving DecidableEq, Repr

namespace Arg

def text : Arg → String
  | .operand o => o.text
  | .immediate value => Text.hexUpper 0 value.toNat ++ "h"

end Arg

namespace Instruction

/-- The bits that an argument sets in its slot; an immediate is cut to the width of its kind. -/
def argumentBits (i : Instruction) (slot : Nat) (kind : OperandKind) :
    Arg → Except OperandError UInt32
  | .operand (.register r) =>
    if kind.isRegister then .ok (Selector.field (slotShift slot) r.field)
    else .error (.invalidLiteral r.text)
  | .operand .zero =>
    match kind with
    | .src =>
      match i.zeroBit? slot with
      | some bit => .ok bit
      | none => .error (.zeroNotAllowed i.mnemonic slot)
    | .dst => .error (.zeroDestination i.mnemonic)
    | .reg => .error (.zeroNotAllowed i.mnemonic slot)
    | _ => .error (.invalidLiteral Operand.zero.text)
  | .immediate value =>
    if kind.isRegister then .error (.expectedRegister (toString value.toNat))
    else .ok (value &&& kind.mask)

/-- The bits of all arguments, from this slot on. The first one that does not fit is reported. -/
def argumentsBits (i : Instruction) (slot : Nat) :
    List (OperandKind × Arg) → Except OperandError UInt32
  | [] => .ok 0
  | (kind, arg) :: rest =>
    match i.argumentBits slot kind arg with
    | .error e => .error e
    | .ok bits => (i.argumentsBits (slot + 1) rest).map (bits ||| ·)

/-- The condition bits of a word; an instruction without a condition has none. -/
def conditionBits (i : Instruction) (c : Condition) : UInt32 :=
  if i.isConditional then c.bits else 0

def encode (i : Instruction) (c : Condition) (args : List Arg) : Except OperandError UInt32 :=
  if args.length ≠ i.operands.length then
    .error (.arity i.mnemonic i.operands.length args.length)
  else
    (i.argumentsBits 0 (i.operands.zip args)).map fun bits =>
      i.selector.value ||| i.conditionBits c ||| bits

end Instruction

/-- A word that is an instruction, with the instruction and condition it was read as. -/
structure Decoded where
  instruction : Instruction
  condition : Condition
  word : UInt32
  deriving DecidableEq, Repr

/-- Reads a word: the first instruction whose fixed bits agree, if no other bit is set than it uses
and its condition, if it has one, exists. -/
def decode (word : UInt32) : Option Decoded :=
  match Pattern.all.find? (·.fits word) with
  | none => none
  | some p =>
    let i := p.instruction
    if word &&& ~~~p.usedBits ≠ 0 then none
    else if i.isConditional then (Condition.ofCode? (word >>> 29)).map fun c => ⟨i, c, word⟩
    else some ⟨i, .always, word⟩

namespace Decoded

/-- The register in a slot. -/
def reg (d : Decoded) (slot : Nat) : Reg :=
  Reg.ofField (d.word >>> Instruction.slotShift slot)

/-- The register or constant zero in a slot. -/
def operand (d : Decoded) (slot : Nat) : Operand :=
  match d.instruction.zeroBit? slot with
  | some bit => if d.word &&& bit ≠ 0 then .zero else .register (d.reg slot)
  | none => .register (d.reg slot)

/-- The immediate, or zero for an instruction without one. -/
def imm (d : Decoded) : UInt32 :=
  match d.instruction.immediateKind? with
  | some kind => d.word &&& kind.mask
  | none => 0

/-- The operands in the order of their slots. -/
def args (d : Decoded) : List Arg :=
  d.instruction.operands.zipIdx.map fun (kind, slot) =>
    match kind with
    | .src => .operand (d.operand slot)
    | .dst | .reg => .operand (.register (d.reg slot))
    | _ => .immediate d.imm

/-- The instruction as a programmer writes it. -/
def text (d : Decoded) : String :=
  let name := d.instruction.mnemonic
    ++ if d.instruction.isConditional then d.condition.suffix else ""
  match d.args with
  | [] => name
  | args => name ++ " " ++ String.intercalate ", " (args.map Arg.text)

end Decoded

/-- What is said of a word that is no instruction. -/
def illegalText (word : UInt32) : String :=
  s!"illegal instruction word {Text.hexMarked 8 word.toNat}"

/-- The whole words of an image, each as an instruction or as the note that it is none. -/
def listing (image : List UInt8) : List String :=
  (LittleEndian.words image).map fun word =>
    match decode word with
    | some d => d.text
    | none => illegalText word

end RegisterMachine
