import RegisterMachine.Assembly.Assembler
import RegisterMachine.Assembly.Diagnostic
import RegisterMachine.Program.Image
import RegisterMachine.Tool.Script

/-!
Programs in files: as source text, which is assembled, or as an image.
-/

namespace RegisterMachine.Script

/-- Ends unless a path leads to something. -/
def need (path : String) (next : Script) : Script :=
  .find path fun found => if found then next else fail s!"Input file does not exist: {path}"

/-- Assembles the source text in a file. A file that is no text ends the script without a word. -/
def assembleFile (path : String) (next : Program → Script) : Script :=
  .read path fun contents =>
    match contents.toOption.bind Text.ofUtf8? with
    | none => .exit 1
    | some source =>
      match Program.assemble source programStart with
      | .error e => .complain (e.diagnostic path source) (.exit 1)
      | .ok p => next p

/-- Reads the image in a file. -/
def readImage (path : String) (next : Program → Script) : Script :=
  .read path fun contents =>
    match contents with
    | .error e => fail s!"Failed to read {path}: {e.message}"
    | .ok bytes =>
      match Program.ofImage bytes with
      | .error e => fail s!"Invalid program image {path}: {e.message}"
      | .ok p => next p

end RegisterMachine.Script
