import RegisterMachine.Instruction.Operand
import RegisterMachine.Instruction.OperandError
import RegisterMachine.Number.Decimal

/-!
Literals and registers as tokens. A literal is decimal, hexadecimal with `h` behind it, binary with
`b` behind it or, with a point in it, a float.
-/

namespace RegisterMachine

inductive Literal where
  | int (value : Int)
  /-- A single-precision number, by its bits. -/
  | float (bits : UInt32)
  deriving DecidableEq, Repr

namespace Literal

/-- The word that a literal stands for; a negative integer is taken modulo `2 ^ 32`. -/
def bits : Literal → UInt32
  | .int value => UInt32.ofInt value
  | .float bits => bits

/-- The literal with its sign turned; an integer is turned in 64 bits. -/
def negate : Literal → Literal
  | .int value => .int (-Int64.ofInt value).toInt
  | .float bits => .float (bits ^^^ 0x80000000)

/-- An integer of 64 bits. -/
def long? (radix : Nat) (digits : List Char) : Option Literal :=
  ((Numeral.integer? radix digits).filter fun n =>
    Int64.minValue.toInt ≤ n ∧ n ≤ Int64.maxValue.toInt).map .int

/-- A literal in lower case, without a minus sign in front. -/
def magnitude? (body : List Char) : Option Literal :=
  match body.getLast? with
  | some 'h' => long? 16 body.dropLast
  | some 'b' => long? 2 body.dropLast
  | _ =>
    if body.contains '.' then (Decimal.parse? body).map fun d => .float d.toFloat32.toBits
    else long? 10 body

/-- Whether the radix is marked in front: `0x`, or `0b` with more behind it that is not closed by
an `h`. -/
def isMarkedInFront : List Char → Bool
  | '0' :: 'x' :: _ => true
  | '0' :: 'b' :: rest => !rest.isEmpty && rest.getLast? != some 'h'
  | _ => false

/-- The minus sign in front of a token, if there is one, and the rest. -/
def splitMinus : List Char → Bool × List Char
  | '-' :: body => (true, body)
  | body => (false, body)

/-- Reads a literal. An integer must fit in 32 bits, with a sign or without one. -/
def parse (token : String) : Except OperandError Literal :=
  let (negative, body) := splitMinus (token.toList.map Char.toLower)
  if isMarkedInFront body then .error (.markedInFront token)
  else
    match magnitude? body with
    | none => .error (.invalidLiteral token)
    | some magnitude =>
      match if negative then magnitude.negate else magnitude with
      | .float bits => .ok (.float bits)
      | .int value =>
        if Int32.minValue.toInt ≤ value ∧ value < UInt32.size then .ok (.int value)
        else .error (.outOfRange token 32)

/-- Reads an integer literal. -/
def parseInt (token : String) : Except OperandError Int := do
  match ← parse token with
  | .int value => .ok value
  | .float _ => .error (.invalidLiteral token)

/-- Reads an integer for a field of this many bits, with a sign or without one. -/
def parseField (width : Nat) (token : String) : Except OperandError UInt32 := do
  let value ← parseInt token
  let lowest : Int := -(1 <<< (width - 1) : Nat)
  let size : Int := (1 <<< width : Nat)
  if lowest ≤ value ∧ value < size then .ok (UInt32.ofInt (value % size))
  else .error (.outOfRange token width)

end Literal

/-- Reads a register: `r` in either case and its number. -/
def Reg.parse (token : String) : Except OperandError Reg :=
  match token.toList with
  | 'r' :: digits | 'R' :: digits =>
    match (Numeral.below? 256 digits).bind Reg.ofNumber? with
    | some r => .ok r
    | none => .error (.invalidRegister token)
  | _ => .error (.expectedRegister token)

end RegisterMachine
