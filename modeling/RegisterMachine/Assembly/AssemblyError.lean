import RegisterMachine.Instruction.OperandError
import RegisterMachine.Program.LabelTable

/-!
What can be wrong with a source text, and where. Lines and columns are counted from one, columns in
characters.
-/

namespace RegisterMachine

structure Position where
  line : Nat
  column : Nat
  deriving DecidableEq, Repr

/-- Something wrong with the text before it has a meaning. -/
inductive TextError where
  | openQuote
  | openStatement
  | namelessLabel
  deriving DecidableEq, Repr

namespace TextError

def message : TextError → String
  | .openQuote => "unterminated string literal (missing closing quote)"
  | .openStatement => "statement is missing its terminating ';'"
  | .namelessLabel => "label definition has no name"

end TextError

/-- Something wrong with the shape of a data declaration or a stack size. -/
inductive DataError where
  | nameless (kind : String)
  | notSingle (kind name : String)
  | notQuoted (name : String)
  | noBytes (name : String)
  | stackShape
  deriving DecidableEq, Repr

namespace DataError

def message (e : DataError) : String :=
  "malformed data declaration: " ++ match e with
    | .nameless kind => s!"{kind} declaration needs a name"
    | .notSingle kind name => s!"{kind} {name} expects exactly one value"
    | .notQuoted name => s!"string {name} expects a quoted value"
    | .noBytes name => s!"bytes {name} expects at least one value"
    | .stackShape => "stack section expects a single size"

end DataError

/-- Something wrong with a statement. -/
inductive StatementError where
  | unknownInstruction (name : String)
  | operand (e : OperandError)
  | label (e : LabelError)
  /-- A relative jump whose label lies in the other direction. -/
  | unreachableLabel (name mnemonic : String)
  | unknownData (kind : String)
  | data (e : DataError)
  | unknownSection (name : String)
  | invalidEscape (c : Char)
  deriving DecidableEq, Repr

namespace StatementError

def message : StatementError → String
  | .unknownInstruction name => s!"invalid instruction name: {name}"
  | .operand e => e.message
  | .label e => e.message
  | .unreachableLabel name mnemonic => s!"label {name} cannot be reached by {mnemonic}"
  | .unknownData kind => s!"invalid data type: {kind}"
  | .data e => e.message
  | .unknownSection name => s!"invalid section: {name}"
  | .invalidEscape c => "invalid escape sequence \\" ++ String.singleton c

end StatementError

inductive AssemblyError where
  | text (position : Position) (e : TextError)
  | statement (position : Position) (e : StatementError)
  /-- The program was to stand at an address that is no multiple of four. -/
  | unaligned (origin : UInt32)
  deriving DecidableEq, Repr

namespace AssemblyError

def position? : AssemblyError → Option Position
  | .text position _ => some position
  | .statement position _ => some position
  | .unaligned _ => none

/-- What is wrong, without the place. -/
def reason : AssemblyError → String
  | .text _ e => e.message
  | .statement _ e => e.message
  | .unaligned origin =>
    s!"invalid configuration: program origin {Text.hexMarked 0 origin.toNat} is not word-aligned"

def message (e : AssemblyError) : String :=
  match e.position? with
  | some position => s!"line {position.line}: {e.reason}"
  | none => e.reason

end AssemblyError

end RegisterMachine
