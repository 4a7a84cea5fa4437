import RegisterMachine.Text.Blank

/-!
How important a report is. Reports below a chosen level are not shown.
-/

namespace RegisterMachine

inductive Level where
  | debug
  | info
  | warn
  | error
  deriving DecidableEq, Repr

namespace Level

def rank : Level → Nat
  | .debug => 0
  | .info => 1
  | .warn => 2
  | .error => 3

/-- Whether reports of `level` are shown when `least` is the least level shown. -/
def shows (least level : Level) : Bool := least.rank ≤ level.rank

def text : Level → String
  | .debug => "DEBUG"
  | .info => "INFO"
  | .warn => "WARN"
  | .error => "ERROR"

/-- The level of a name, in either case and with blanks around it. -/
def parse? (name : String) : Option Level :=
  match (Text.trim name).map Char.toLower with
  | "debug" | "trace" => some .debug
  | "info" => some .info
  | "warn" | "warning" => some .warn
  | "error" => some .error
  | _ => none

end Level

end RegisterMachine
