import RegisterMachine.Assembly.Literal
import RegisterMachine.Assembly.Token
import RegisterMachine.Instruction.Name
import RegisterMachine.Number.LittleEndian
import RegisterMachine.Text.Utf8

/-!
The first pass of assembly: every statement gets an address and a size, and every label its
address. Instructions are not yet looked into, beyond what their size needs.
-/

namespace RegisterMachine

/-- What takes a place in a program. -/
inductive Item where
  | instruction (mnemonic : Mnemonic) (condition : Condition) (name : String)
    (operands : List Token)
  | data (bytes : List UInt8)
  /-- A `.data` header: a jump to the next code. -/
  | dataHead
  /-- A `.code` header, which takes no room. -/
  | codeStart
  deriving DecidableEq, Repr

structure Placed where
  item : Item
  address : Nat
  /-- How many bytes are kept for the item. -/
  size : Nat
  /-- Where its statement begins, a label in front included. -/
  position : Position
  deriving DecidableEq, Repr

structure Layout where
  items : List Placed
  labels : LabelTable
  stackSize : Option UInt32
  size : Nat

inductive Section where
  | data
  | code
  /-- After a lone `.stack` header, whose size is the next statement. -/
  | stack
  deriving DecidableEq, Repr

/-- The bytes with zeros behind them up to a whole number of words. -/
def padWord (bytes : List UInt8) : List UInt8 :=
  bytes ++ List.replicate ((4 - bytes.length % 4) % 4) 0

namespace DataDeclaration

/-- The one value that a declaration must have. -/
def single (kind name : String) : List Token → Except StatementError Token
  | [value] => .ok value
  | _ => .error (.data (.notSingle kind name))

/-- The bytes that a declaration of this kind stands for, before they are padded. -/
def bytes (kind name : String) (values : List Token) : Except StatementError (List UInt8) := do
  match kind with
  | "string" =>
    let value ← single kind name values
    if value.quoted then .ok (Text.utf8 value.text ++ [0]) else .error (.data (.notQuoted name))
  | "int" =>
    let value ← single kind name values
    let n ← (Literal.parseInt value.text).mapError .operand
    .ok (LittleEndian.wordBytes (UInt32.ofInt n))
  | "float" =>
    let value ← single kind name values
    match ← (Literal.parse value.text).mapError .operand with
    | .int n => .ok (LittleEndian.wordBytes (Float32.ofInt n).toBits)
    | .float bits => .ok (LittleEndian.wordBytes bits)
  | "bytes" =>
    if values.isEmpty then .error (.data (.noBytes name))
    else values.mapM fun value =>
      ((Literal.parseField 8 value.text).mapError .operand).map UInt32.toUInt8
  | _ => .error (.unknownData kind)

/-- The name that a declaration binds and its bytes, padded to whole words. -/
def parse (s : Statement) : Except StatementError (String × List UInt8) :=
  let kind := s.first.text.map Char.toLower
  match s.rest with
  | [] => .error (.data (.nameless kind))
  | name :: values =>
    if name.quoted then .error (.data (.nameless kind))
    else (bytes kind name.text values).map fun bs => (name.text, padWord bs)

end DataDeclaration

/-- How many words a statement of this mnemonic becomes. `LOADWORDI` is one word if its value is
known and fits in sixteen bits, and two otherwise. -/
def Mnemonic.wordCount (operands : List Token) : Mnemonic → Except OperandError Nat
  | .native _ => .ok 1
  | .loadWordI =>
    match operands with
    | [_, value] =>
      if value.startsWith '@' then .ok 2
      else (Literal.parse value.text).map fun literal => if literal.bits ≤ 0xFFFF then 1 else 2
    | _ => .error (.arity Mnemonic.loadWordI.text 2 operands.length)

/-- Reads the size of a call stack, which is at least one word. -/
def parseStackSize (token : Token) : Except OperandError UInt32 := do
  let size ← Literal.parseInt token.text
  if 1 ≤ size then .ok (UInt32.ofInt size) else .error (.invalidLiteral token.text)

/-- The first pass between two statements. Placed items stand last one first. -/
structure LayoutState where
  current : Section
  items : List Placed
  labels : LabelTable
  stackSize : Option UInt32
  address : Nat

namespace LayoutState

def start (origin : Nat) : LayoutState := ⟨.code, [], .empty, none, origin⟩

/-- Gives an item the next free address. -/
def place (s : LayoutState) (item : Item) (size : Nat) (position : Position) : LayoutState :=
  { s with items := ⟨item, s.address, size, position⟩ :: s.items, address := s.address + size }

/-- Binds a label to the next free address. -/
def bind (s : LayoutState) (name : String) : Except StatementError LayoutState :=
  ((s.labels.define name (UInt32.ofNat s.address)).mapError .label).map fun labels =>
    { s with labels }

/-- Reads a section header, `.data`, `.code` or `.stack`, the last with its size or without it. -/
def header (s : LayoutState) (st : Statement) : Except StatementError LayoutState :=
  match st.first.tail.map Char.toLower, st.rest with
  | "data", [] => .ok ({ s with current := .data }.place .dataHead 4 st.first.position)
  | "code", [] => .ok ({ s with current := .code }.place .codeStart 0 st.first.position)
  | "stack", [] => .ok { s with current := .stack }
  | "stack", [size] =>
    ((parseStackSize size).mapError .operand).map fun n => { s with stackSize := some n }
  | _, _ => .error (.unknownSection st.first.text)

/-- Reads the size that follows a lone `.stack` header. -/
def stackStatement (s : LayoutState) (st : Statement) : Except StatementError LayoutState :=
  match st.rest with
  | [] =>
    ((parseStackSize st.first).mapError .operand).map fun n =>
      { s with stackSize := some n, current := .code }
  | _ => .error (.data .stackShape)

/-- Places a data declaration whose statement begins at `start`. -/
def dataStatement (s : LayoutState) (start : Position) (st : Statement) :
    Except StatementError LayoutState := do
  let (name, bytes) ← DataDeclaration.parse st
  let s ← s.bind name
  .ok (s.place (.data bytes) bytes.length start)

/-- Places an instruction whose statement begins at `start`. -/
def codeStatement (s : LayoutState) (start : Position) (st : Statement) :
    Except StatementError LayoutState := do
  let name := st.first.text
  match if st.first.quoted then none else Mnemonic.ofName? name with
  | none => .error (.unknownInstruction name)
  | some (mnemonic, condition) =>
    let words ← (mnemonic.wordCount st.rest).mapError .operand
    .ok (s.place (.instruction mnemonic condition name st.rest) (4 * words) start)

/-- Places what stands in a statement behind its label. What is wrong with it at once is reported
where it stands, and what turns out to be wrong later where the statement begins. -/
def body (s : LayoutState) (start : Position) (st : Statement) :
    Except AssemblyError LayoutState :=
  (match s.current with
    | .data => s.dataStatement start st
    | _ => s.codeStatement start st).mapError (.statement st.first.position)

/-- Reads one statement. A label in front may stand alone. -/
def step (s : LayoutState) (st : Statement) : Except AssemblyError LayoutState :=
  let position := st.first.position
  if st.first.startsWith '.' then (s.header st).mapError (.statement position)
  else if s.current = .stack then (s.stackStatement st).mapError (.statement position)
  else if st.first.startsWith ':' then
    if st.first.tail.isEmpty then .error (.text position .namelessLabel)
    else do
      let s ← (s.bind st.first.tail).mapError (.statement position)
      match Statement.ofTokens? st.rest with
      | none => .ok s
      | some rest => s.body position rest
  else s.body position st

end LayoutState

/-- Lays statements out from an address on. -/
def Layout.ofStatements (origin : Nat) (statements : List Statement) :
    Except AssemblyError Layout := do
  let s ← statements.foldlM LayoutState.step (LayoutState.start origin)
  .ok ⟨s.items.reverse, s.labels, s.stackSize, s.address - origin⟩

end RegisterMachine
