/-!
What can be wrong with an instruction's operands, as a list or as single tokens.
-/

namespace RegisterMachine

inductive OperandError where
  | arity (mnemonic : String) (expected actual : Nat)
  | expectedRegister (token : String)
  | invalidRegister (token : String)
  /-- The constant zero where a register is written. -/
  | zeroDestination (mnemonic : String)
  /-- The constant zero in a slot that cannot encode it. -/
  | zeroNotAllowed (mnemonic : String) (slot : Nat)
  | invalidLiteral (token : String)
  /-- A literal marked in front, as in `0x1F`, instead of behind, as in `1Fh`. -/
  | markedInFront (token : String)
  | outOfRange (token : String) (bits : Nat)
  deriving DecidableEq, Repr

namespace OperandError

def message : OperandError → String
  | .arity mnemonic expected actual =>
    s!"instruction {mnemonic} expects {expected} operands but got {actual}"
  | .expectedRegister token => s!"expected register, got {token}"
  | .invalidRegister token => s!"invalid register {token}"
  | .zeroDestination mnemonic =>
    s!"instruction {mnemonic} cannot write to the constant zero operand"
  | .zeroNotAllowed mnemonic slot =>
    s!"instruction {mnemonic} does not accept 0 as operand {slot}"
  | .invalidLiteral token => s!"invalid literal {token}"
  | .markedInFront token =>
    s!"prefixed literal {token} is not supported, use a trailing h or b instead"
  | .outOfRange token bits => s!"value {token} does not fit in {bits} bits"

end OperandError

end RegisterMachine
