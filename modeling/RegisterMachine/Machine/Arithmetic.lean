import RegisterMachine.Instruction.Table
import RegisterMachine.Machine.Interrupt

/-!
What instructions compute from words alone. A word is read as an integer or as a single-precision
float, by the instruction. A float result that is no number is a math error unless an operand
already was none.
-/

namespace RegisterMachine.Arithmetic

/-! ### Floats -/

/-- The word without its sign bit. -/
def unsigned (x : UInt32) : UInt32 := x &&& 0x7FFFFFFF

def isNaN (x : UInt32) : Bool := 0x7F800000 < unsigned x

/-- Whether the word is a zero of either sign. -/
def isZero (x : UInt32) : Bool := unsigned x == 0

/-- Whether the word is no number and has its quiet bit clear. -/
def isSignaling (x : UInt32) : Bool := isNaN x && x &&& 0x00400000 == 0

/-- The word with its quiet bit set. -/
def quiet (x : UInt32) : UInt32 := x ||| 0x00400000

/-- Applies a function of one float. An operand that is no number is passed on, made quiet. -/
def float1 (f : Float32 → Float32) (x : UInt32) : Except Interrupt UInt32 :=
  if isNaN x then .ok (quiet x)
  else
    let result := (f (Float32.ofBits x)).toBits
    if isNaN result then .error .mathError else .ok result

/-- Applies a function of two floats. Where it gives no number, the first operand that is none is
passed on, made quiet. A signaling operand is always passed on. -/
def float2 (f : Float32 → Float32 → Float32) (x y : UInt32) : Except Interrupt UInt32 :=
  let result := (f (Float32.ofBits x) (Float32.ofBits y)).toBits
  if !isNaN result && !isSignaling x && !isSignaling y then .ok result
  else if isNaN x then .ok (quiet x)
  else if isNaN y then .ok (quiet y)
  else .error .mathError

/-- A function of one float that is computed in double precision and rounded once. -/
def rounded (f : Float → Float) (x : Float32) : Float32 := (f x.toFloat).toFloat32

/-- The power, computed in double precision and rounded once. -/
def power (x y : Float32) : Float32 := (x.toFloat.pow y.toFloat).toFloat32

/-- One with the sign of a float, as a float. A zero of either sign gives zero, and what is no
number gives the plain quiet one. -/
def sign (x : UInt32) : UInt32 :=
  if isZero x then 0
  else if isNaN x then 0x7FC00000
  else x &&& 0x80000000 ||| 0x3F800000

/-- One degree in radians. -/
def degree : Float32 := Float32.ofBits 0x3C8EFA35

/-- The integer part of a float. Numbers out of range become the nearest integer there is, and what
is no number becomes zero. -/
def truncate (x : UInt32) : Int32 := (Float32.ofBits x).toInt32

/-! ### Integers -/

/-- The remainder that has the sign of the divisor. -/
def floorMod (x y : Int32) : Int32 :=
  let r := x % y
  if r ≠ 0 ∧ (r < 0) ≠ (y < 0) then r + y else r

def integer2 (f : Int32 → Int32 → Int32) (x y : UInt32) : UInt32 :=
  (f x.toInt32 y.toInt32).toUInt32

/-- A division, which needs a divisor other than zero. -/
def division (f : Int32 → Int32 → Int32) (x y : UInt32) : Except Interrupt UInt32 :=
  if y = 0 then .error .divideByZero else .ok (integer2 f x y)

/-- The floor remainder of two floats, after both are cut to integers. -/
def modulo (x y : UInt32) : Except Interrupt UInt32 :=
  if truncate y = 0 then .error .divideByZero
  else .ok (floorMod (truncate x) (truncate y)).toFloat32.toBits

/-! ### Comparison -/

/-- The flag of a comparison of two integers. -/
def compareInt (x y : Int32) : Int := if x < y then -1 else if x = y then 0 else 1

/-- The flag of a comparison of two floats; what is no number cannot be compared. -/
def compareFloat (x y : Float) : Except Interrupt Int :=
  if x < y then .ok (-1) else if x == y then .ok 0 else if y < x then .ok 1
  else .error .mathError

/-- A word read as an integer, as a float. -/
def ofInteger (x : UInt32) : Float := Float.ofInt x.toInt32.toInt

/-- A word read as a float. -/
def ofFloat (x : UInt32) : Float := (Float32.ofBits x).toFloat

/-! ### Instructions -/

/-- The word that an instruction computes from the operands in its slots 1 and 2 and assigns to the
register in slot 0, if that is all it does. -/
def result (i : Instruction) (x y : UInt32) : Option (Except Interrupt UInt32) :=
  match i with
  | .add => some (float2 (· + ·) x y)
  | .sub => some (float2 (· - ·) x y)
  | .mul => some (float2 (· * ·) x y)
  | .div => some (if isZero y then .error .divideByZero else float2 (· / ·) x y)
  | .pow => some (float2 power x y)
  | .mod => some (modulo x y)
  | .shl => some (.ok (x <<< y))
  | .shr => some (.ok (integer2 (· >>> ·) x y))
  | .ushr => some (.ok (x >>> y))
  | .and => some (.ok (x &&& y))
  | .or => some (.ok (x ||| y))
  | .xor => some (.ok (x ^^^ y))
  | .abs => some (.ok (unsigned x))
  | .sin => some (float1 (rounded Float.sin) x)
  | .cos => some (float1 (rounded Float.cos) x)
  | .tan => some (float1 (rounded Float.tan) x)
  | .floor => some (float1 Float32.floor x)
  | .ceil => some (float1 Float32.ceil x)
  | .round => some (float1 Float32.round x)
  | .log => some (float1 (rounded Float.log) x)
  | .sgn => some (.ok (sign x))
  | .sqrt => some (float1 Float32.sqrt x)
  | .cbrt => some (float1 (rounded Float.cbrt) x)
  | .inv => some (if isZero x then .error .divideByZero else float1 (1 / ·) x)
  | .rad => some (float1 (· * degree) x)
  | .not => some (.ok (~~~x))
  | .mov => some (.ok x)
  | .ftoi => some (if isNaN x then .error .mathError else .ok (truncate x).toUInt32)
  | .itof => some (.ok x.toInt32.toFloat32.toBits)
  | .addInt => some (.ok (x + y))
  | .subInt => some (.ok (x - y))
  | .mulInt => some (.ok (x * y))
  | .divInt => some (division (· / ·) x y)
  | .modInt => some (division floorMod x y)
  | _ => none

end RegisterMachine.Arithmetic
