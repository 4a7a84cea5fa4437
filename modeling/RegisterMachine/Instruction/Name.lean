import RegisterMachine.Instruction.Table

/-!
Instruction names as programs write them: a mnemonic, with a condition behind it where the
instruction takes one, in letters of either case.
-/

namespace RegisterMachine

/-- What a mnemonic stands for. -/
inductive Mnemonic where
  | native (i : Instruction)
  /-- `LOADWORDI`, which becomes one or two instructions. -/
  | loadWordI
  deriving DecidableEq, Repr

namespace Mnemonic

def text : Mnemonic → String
  | .native i => i.mnemonic
  | .loadWordI => "LOADWORDI"

/-- The conditions that may stand behind a mnemonic. -/
def conditions : Mnemonic → List Condition
  | .native i => if i.isConditional then Condition.all else [.always]
  | .loadWordI => Condition.all

/-- Every mnemonic in upper case; `CMPII` is a second name for `CMP`. -/
def all : List (String × Mnemonic) :=
  (Instruction.all.map fun i => (i.mnemonic, .native i))
    ++ [("CMPII", .native .cmp), (loadWordI.text, .loadWordI)]

/-- Every name with its meaning. -/
def names : List (String × Mnemonic × Condition) :=
  all.flatMap fun (name, m) => m.conditions.map fun c => (name ++ c.suffix, m, c)

/-- The meaning of a name. -/
def ofName? (name : String) : Option (Mnemonic × Condition) :=
  names.lookup (name.map Char.toUpper)

end Mnemonic

end RegisterMachine
