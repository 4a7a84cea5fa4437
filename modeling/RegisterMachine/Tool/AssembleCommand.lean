import RegisterMachine.Instruction.Word
import RegisterMachine.Tool.Path
import RegisterMachine.Tool.ProgramFile
import RegisterMachine.Tool.Usage

/-!
The command that assembles a source text into an image or, asked to, prints the listing of an image.
-/

namespace RegisterMachine

structure AssembleOptions where
  input : Option String
  output : Option String
  listing : Bool
  deriving DecidableEq, Repr

namespace AssembleCommand

def usage (name : String) : String :=
  "TerranVM Assembler\n\n"
    ++ s!"USAGE:\n    {name} <input.asm> [OPTIONS]\n    {name} --disassemble <input.bin>\n\n"
    ++ "OPTIONS:\n"
    ++ "    -o, --output <file>    Output file path (defaults to <input>.bin)\n"
    ++ "    -d, --disassemble      Print the listing of an assembled program image\n"
    ++ "    -h, --help             Print this help message\n\n"
    ++ "ENVIRONMENT:\n"
    ++ "    TERRANVM_LOG    Log level: debug, info, warn or error (default info)\n"

/-- Reads options from the left. The first argument that does not begin with a dash is the input. -/
def parse (o : AssembleOptions) : List String → Except ArgumentError AssembleOptions
  | [] => .ok o
  | argument :: rest =>
    if argument = "--output" ∨ argument = "-o" then
      match rest with
      | [] => .error (.missingValue argument)
      | path :: rest => parse { o with output := some path } rest
    else if argument = "--disassemble" ∨ argument = "-d" then parse { o with listing := true } rest
    else if o.input.isNone ∧ argument.toList.head? ≠ some '-' then
      parse { o with input := some argument } rest
    else .error (.unexpected argument)

/-- The lines of a word in a listing: the labels at its address and what the word is. -/
def wordLines (labels : LabelTable) (address word : UInt32) : String :=
  let names := labels.entries.filter fun label => label.2 = address
  let text := match decode word with
    | some d => d.text
    | none => ".data"
  String.join (names.map fun label => s!"        :{label.1};\n")
    ++ s!"{Text.hexUpper 6 address.toNat}  {Text.hexUpper 8 word.toNat}  {text}\n"

/-- The listing of the words from an address on. -/
def listingFrom (labels : LabelTable) (address : UInt32) : List UInt32 → String
  | [] => ""
  | word :: rest => wordLines labels address word ++ listingFrom labels (address + 4) rest

/-- The listing of a program. -/
def listing (p : Program) : String := listingFrom p.labels p.origin p.words

/-- Ends unless the folder that a file is to be written to exists. -/
def needFolder (path : String) (next : Script) : Script :=
  match Path.parent? path with
  | none => next
  | some folder =>
    if folder.isEmpty then next
    else
      .find folder fun found =>
        if found then next else Script.fail s!"Output directory does not exist: {folder}"

/-- Writes the image of a program that came from `input`. -/
def writeImage (least : Level) (input output : String) (p : Program) : Script :=
  .write output p.image fun written =>
    match written with
    | .error e => Script.fail s!"Failed to write output file: {e.message}"
    | .ok () =>
      Script.report least .info
        (s!"Assembled {input} -> {output} "
          ++ s!"({p.size} bytes of code and data, {p.labels.size} labels)")
        (.exit 0)

/-- Assembles the input, or prints its listing. -/
def body (name : String) (least : Level) (arguments : List String) : Script :=
  match parse ⟨none, none, false⟩ arguments with
  | .error e => e.script (usage name)
  | .ok o =>
    match o.input with
    | none => ArgumentError.noInput.script (usage name)
    | some input =>
      Script.need input <|
        if o.listing then
          Script.readImage input fun p => .print (Text.utf8 (listing p)) (.exit 0)
        else
          let output := o.output.getD (Path.withExtension input "bin")
          needFolder output (Script.assembleFile input (writeImage least input output))

/-- The command under this name. -/
def script (name : String) (least : Level) (arguments : List String) : Script :=
  Script.command (usage name) (body name least) arguments

end AssembleCommand

end RegisterMachine
