/-!
Integers as text: one or more digits of a radix, with at most one sign in front. Letters in either
case stand for the digits from ten on.
-/

namespace RegisterMachine.Numeral

/-- The digit that a character stands for, if it is one in this radix. -/
def digit? (radix : Nat) (c : Char) : Option Nat :=
  let digit :=
    if '0' ≤ c ∧ c ≤ '9' then some (c.toNat - '0'.toNat)
    else if 'a' ≤ c ∧ c ≤ 'z' then some (c.toNat - 'a'.toNat + 10)
    else if 'A' ≤ c ∧ c ≤ 'Z' then some (c.toNat - 'A'.toNat + 10)
    else none
  digit.filter (· < radix)

/-- Reads digits from the left; `high` is the number read so far. -/
def digits? (radix high : Nat) : List Char → Option Nat
  | [] => some high
  | c :: rest => (digit? radix c).bind fun d => digits? radix (radix * high + d) rest

/-- A number without a sign. -/
def natural? (radix : Nat) (text : List Char) : Option Nat :=
  if text.isEmpty then none else digits? radix 0 text

/-- A number with at most one sign in front. -/
def integer? (radix : Nat) : List Char → Option Int
  | '-' :: text => (natural? radix text).map fun n => -(n : Int)
  | '+' :: text => (natural? radix text).map fun n => (n : Int)
  | text => (natural? radix text).map fun n => (n : Int)

/-- A decimal number below `bound`, which may have a plus sign in front but no minus sign. -/
def below? (bound : Nat) (text : List Char) : Option Nat :=
  let digits := match text with
    | '+' :: rest => rest
    | _ => text
  (natural? 10 digits).filter (· < bound)

theorem digit?_lt {radix d : Nat} {c : Char} (h : digit? radix c = some d) : d < radix := by
  simpa using (Option.filter_eq_some_iff.mp h).2

end RegisterMachine.Numeral
