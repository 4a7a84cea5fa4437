import RegisterMachine.Assembly.Layout
import RegisterMachine.Instruction.Word
import RegisterMachine.Program.Basic

/-!
The second pass of assembly: every placed item becomes its bytes, with all labels known. The jump at
the head of a data section is written when its target is reached.
-/

namespace RegisterMachine

/-- How an instruction at this address counts its target: a relative jump in words from the next
instruction, a word offset in words from zero, anything else in bytes. -/
def Instruction.scaled? (i : Instruction) (kind : OperandKind) (target address : Nat) :
    Option Nat :=
  let next := address + 4
  match i with
  | .jfw => if next ≤ target then some ((target - next) / 4) else none
  | .jbw => if target ≤ next then some ((next - target) / 4) else none
  | _ => if kind = .off22 then some (target / 4) else some target

/-- What a label operand stands for in an instruction at this address. -/
def Instruction.labelValue (i : Instruction) (kind : OperandKind) (name : String)
    (target address : Nat) : Except StatementError UInt32 :=
  match i.scaled? kind target address with
  | none => .error (.unreachableLabel name i.mnemonic)
  | some n =>
    if n < 1 <<< kind.width then .ok (UInt32.ofNat n)
    else .error (.operand (.outOfRange ("@" ++ name) kind.width))

/-- The label that an operand refers to. -/
def Token.reference? (token : Token) : Option String :=
  if token.startsWith '@' then some token.tail else none

/-- The argument that a token stands for. -/
def Instruction.arg (i : Instruction) (kind : OperandKind) (token : Token) (address : Nat)
    (labels : LabelTable) : Except StatementError Arg :=
  if token.quoted then .error (.operand (.invalidLiteral token.text))
  else if kind.isRegister then
    if token.text = "0" then .ok (.operand .zero)
    else ((Reg.parse token.text).mapError .operand).map fun r => .operand (.register r)
  else
    match token.reference? with
    | some name => do
      let target ← (labels.resolve name).mapError .label
      (i.labelValue kind name target.toNat address).map .immediate
    | none => ((Literal.parseField kind.width token.text).mapError .operand).map .immediate

/-- The arguments of an instruction, the first wrong one reported. -/
def Instruction.args (i : Instruction) (address : Nat) (labels : LabelTable) :
    List (OperandKind × Token) → Except StatementError (List Arg)
  | [] => .ok []
  | (kind, token) :: rest => do
    let arg ← i.arg kind token address labels
    let args ← i.args address labels rest
    .ok (arg :: args)

/-- The value of `LOADWORDI` and whether it is a label's address. -/
def loadWordValue (token : Token) (labels : LabelTable) : Except StatementError (UInt32 × Bool) :=
  match token.reference? with
  | some name => ((labels.resolve name).mapError .label).map (·, true)
  | none => ((Literal.parse token.text).mapError .operand).map fun literal => (literal.bits, false)

/-- The words of a `LOADWORDI`: the value at once, or its low half and then its high half. -/
def loadWordWords (c : Condition) (rd : Arg) (value : UInt32) (isLabel : Bool) :
    Except OperandError (List UInt32) := do
  if !isLabel && value ≤ 0xFFFF then
    .ok [← Instruction.loadHwordI.encode c [rd, .immediate value]]
  else
    let low ← Instruction.loadWordILo.encode c [rd, .immediate (value &&& 0xFFFF)]
    let high ← Instruction.loadWordIHi.encode c [rd, .immediate (value >>> 16)]
    .ok [low, high]

/-- The words of an instruction statement at this address; `name` is its name as written. -/
def Mnemonic.words (m : Mnemonic) (c : Condition) (name : String) (operands : List Token)
    (address : Nat) (labels : LabelTable) : Except StatementError (List UInt32) :=
  let wrongCount (expected : Nat) : StatementError :=
    .operand (.arity (name.map Char.toUpper) expected operands.length)
  match m with
  | .native i =>
    if operands.length ≠ i.operands.length then .error (wrongCount i.operands.length)
    else do
      let args ← i.args address labels (i.operands.zip operands)
      let word ← (i.encode c args).mapError .operand
      .ok [word]
  | .loadWordI =>
    match operands with
    | [rd, value] => do
      let rd ← Instruction.loadHwordI.arg .dst rd address labels
      let (bits, isLabel) ← loadWordValue value labels
      (loadWordWords c rd bits isLabel).mapError .operand
    | _ => .error (wrongCount 2)

/-- The jump to an address that stands at the head of a data section. -/
def jumpWord (target : Nat) : UInt32 :=
  Instruction.jmp.selector.value ||| UInt32.ofNat (target / 4) &&& OperandKind.off22.mask

/-- The second pass between two items: what is written so far, and where the jumps stand that wait
for the next code section. -/
structure Emission where
  bytes : List UInt8
  heads : List Nat

namespace Emission

def start : Emission := ⟨[], []⟩

def append (e : Emission) (bytes : List UInt8) : Emission := { e with bytes := e.bytes ++ bytes }

/-- Keeps room for a jump whose target is not known yet. -/
def appendHead (e : Emission) : Emission :=
  ⟨e.bytes ++ List.replicate 4 0, e.heads ++ [e.bytes.length]⟩

/-- Writes a word over the four bytes that begin here. -/
def overwrite (bytes : List UInt8) (start : Nat) (word : UInt32) : List UInt8 :=
  bytes.take start ++ LittleEndian.wordBytes word ++ bytes.drop (start + 4)

/-- Gives all jumps that wait this target. -/
def patch (e : Emission) (target : Nat) : Emission :=
  ⟨e.heads.foldl (fun bytes start => overwrite bytes start (jumpWord target)) e.bytes, []⟩

/-- Writes one item. -/
def step (labels : LabelTable) (e : Emission) (p : Placed) : Except AssemblyError Emission :=
  match p.item with
  | .instruction m c name operands =>
    ((m.words c name operands p.address labels).mapError (.statement p.position)).map fun words =>
      e.append (words.flatMap LittleEndian.wordBytes)
  | .data bytes => .ok (e.append bytes)
  | .dataHead => .ok e.appendHead
  | .codeStart => .ok (e.patch p.address)

/-- The bytes of a program that begins at `origin`. With no code behind them, jumps go to its
end. -/
def finish (origin : Nat) (e : Emission) : List UInt8 :=
  (e.patch (origin + e.bytes.length)).bytes

end Emission

/-- The program of a layout. It starts with its first byte. -/
def Layout.program (l : Layout) (origin : UInt32) : Except AssemblyError Program := do
  let e ← l.items.foldlM (Emission.step l.labels) .start
  .ok ⟨origin, origin, l.stackSize, e.finish origin.toNat, l.labels⟩

end RegisterMachine
