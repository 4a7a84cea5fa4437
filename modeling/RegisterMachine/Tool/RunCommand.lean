import RegisterMachine.Machine.Load
import RegisterMachine.Number.Numeral
import RegisterMachine.Tool.Path
import RegisterMachine.Tool.ProgramFile
import RegisterMachine.Tool.Usage

/-!
The command that runs a program on the console: `<program> [options]`. A path that ends in `.bin` is
that of an image, any other that of a source text.
-/

namespace RegisterMachine

structure RunOptions where
  config : Config
  /-- The least level of what is reported. -/
  least : Level
  deriving DecidableEq, Repr

namespace RunCommand

def usage (name : String) : String :=
  "TerranVM\n\n"
    ++ s!"USAGE:\n    {name} <program> [OPTIONS]\n\n"
    ++ "ARGS:\n"
    ++ "    <program>    Assembly source, or a program image ending in .bin\n\n"
    ++ "OPTIONS:\n"
    ++ "    --memory <bytes>    Main memory size, a multiple of 4 (default 65536)\n"
    ++ "    --stack <words>     Call-stack capacity per context (default 64)\n"
    ++ "    --seed <n>          Seed for the RND and RNDI generator\n"
    ++ "    --no-handlers       Do not install the built-in fault handlers\n"
    ++ "    --trace             Log every executed instruction\n"
    ++ "    -h, --help          Print this help message\n\n"
    ++ "ENVIRONMENT:\n"
    ++ "    TERRANVM_LOG    Log level: debug, info, warn or error (default info)\n\n"
    ++ "EXAMPLES:\n"
    ++ s!"    {name} hello.asm\n"
    ++ s!"    {name} hello.bin --memory 1048576 --trace\n"

/-- An option with a number: the bound of the number and what it sets. -/
structure NumberOption where
  name : String
  bound : Nat
  set : Nat → Config → Config

def numberOptions : List NumberOption :=
  [⟨"--memory", UInt64.size, fun n c => { c with memorySize := n }⟩,
    ⟨"--stack", UInt32.size, fun n c => { c with stackSize := n }⟩,
    ⟨"--seed", UInt64.size, fun n c => { c with seed := UInt64.ofNat n }⟩]

/-- Reads options from the left. -/
def parse (o : RunOptions) : List String → Except ArgumentError RunOptions
  | [] => .ok o
  | argument :: rest =>
    match numberOptions.find? fun option => option.name = argument with
    | some option =>
      match rest with
      | [] => .error (.missingValue argument)
      | value :: rest =>
        match Numeral.below? option.bound value.toList with
        | none => .error (.invalidNumber argument value)
        | some n => parse { o with config := option.set n o.config } rest
    | none =>
      if argument = "--no-handlers" then
        parse { o with config := { o.config with defaultHandlers := false } } rest
      else if argument = "--trace" then parse ⟨{ o.config with trace := true }, .debug⟩ rest
      else .error (.unexpected argument)

/-- Runs a loaded machine and tells how it ended. -/
def run (o : RunOptions) (m : Machine) : Script :=
  .run m (Event.line o.least) fun session =>
    match session.outcome with
    | .exited reason =>
      Script.report o.least .info s!"VM {reason.text} after {session.elapsed} ms" (.exit 0)
    | _ => .exit 1

/-- Sets up a machine, loads a program that came from this path and runs it. -/
def start (o : RunOptions) (path : String) (p : Program) : Script :=
  match Machine.create o.config with
  | .error e => Script.fail e.message
  | .ok (m, events) =>
    Script.reportAll o.least events <|
      match m.load p with
      | (_, .error e, _) => Script.fail s!"Failed to load {path}: {e.message}"
      | (m, .ok (), events) => Script.reportAll o.least events (run o m)

/-- Reads a program and runs it. -/
def body (name : String) (least : Level) : List String → Script
  | [] => .exit 1
  | path :: options =>
    match parse ⟨Config.default, least⟩ options with
    | .error e => e.script (usage name)
    | .ok o =>
      Script.need path <|
        if Path.extension? path = some "bin" then Script.readImage path (start o path)
        else Script.assembleFile path (start o path)

/-- The command under this name. -/
def script (name : String) (least : Level) (arguments : List String) : Script :=
  Script.command (usage name) (body name least) arguments

end RunCommand

end RegisterMachine
