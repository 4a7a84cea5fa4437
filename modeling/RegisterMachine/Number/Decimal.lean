import RegisterMachine.Number.Numeral

/-!
Decimal fractions as text, and the single-precision number nearest to one. A fraction has at least
one digit, before or after its point; an exponent of ten may follow.
-/

namespace RegisterMachine

/-- The number `digits * 10 ^ exponent`, with a sign. -/
structure Decimal where
  negative : Bool
  digits : Nat
  exponent : Int
  deriving DecidableEq, Repr

namespace Decimal

/-- What follows the digits: nothing, or `e` and an integer. -/
def exponent? : List Char → Option Int
  | [] => some 0
  | c :: rest => if c = 'e' ∨ c = 'E' then Numeral.integer? 10 rest else none

/-- A fraction without its sign. -/
def unsigned? (negative : Bool) (text : List Char) : Option Decimal :=
  let whole := text.takeWhile Char.isDigit
  let (fraction, rest) := match text.dropWhile Char.isDigit with
    | '.' :: rest => (rest.takeWhile Char.isDigit, rest.dropWhile Char.isDigit)
    | rest => ([], rest)
  match Numeral.natural? 10 (whole ++ fraction), exponent? rest with
  | some digits, some exponent => some ⟨negative, digits, exponent - fraction.length⟩
  | _, _ => none

/-- A fraction with at most one sign in front. -/
def parse? : List Char → Option Decimal
  | '-' :: text => unsigned? true text
  | '+' :: text => unsigned? false text
  | text => unsigned? false text

/-- Single-precision infinity. -/
def infinity : Float32 := Float32.ofBits 0x7F800000

/-- The nearest single-precision number without the sign. From `10 ^ 40` on that is infinity and
below `10 ^ (-50)` it is zero, so no larger power of ten is ever computed. -/
def magnitude (d : Decimal) : Float32 :=
  let places : Int := (Nat.toDigits 10 d.digits).length + d.exponent
  if d.digits = 0 ∨ places < -50 then 0
  else if 40 < places then infinity
  else Float32.ofScientific d.digits (d.exponent < 0) d.exponent.natAbs

/-- The nearest single-precision number; ties go to the even neighbour. -/
def toFloat32 (d : Decimal) : Float32 :=
  if d.negative then -d.magnitude else d.magnitude

end Decimal

end RegisterMachine
