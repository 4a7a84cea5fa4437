import RegisterMachine.Assembly.AssemblyError
import RegisterMachine.Text.Blank

/-!
Source text as statements of tokens. Blanks and commas part tokens, `;` ends a statement, `#` begins
a comment up to the end of the line, and a text in double quotes is one token. `Scan.step` reads one
character, so scanning a text in two parts is scanning it whole.
-/

namespace RegisterMachine

structure Token where
  text : String
  /-- Where its first character stands. -/
  position : Position
  /-- Whether it stood in quotes; its escapes are then resolved. -/
  quoted : Bool
  deriving DecidableEq, Repr

namespace Token

/-- Whether an unquoted token begins with this mark. -/
def startsWith (token : Token) (mark : Char) : Bool :=
  !token.quoted && token.text.toList.head? == some mark

/-- The token's text without its first character. -/
def tail (token : Token) : String := String.ofList token.text.toList.tail

end Token

/-- A statement has at least one token. -/
structure Statement where
  first : Token
  rest : List Token
  deriving DecidableEq, Repr

namespace Statement

def tokens (s : Statement) : List Token := s.first :: s.rest

def ofTokens? : List Token → Option Statement
  | [] => none
  | first :: rest => some ⟨first, rest⟩

end Statement

/-- What the scanner is inside of. Collected characters stand last one first. -/
inductive Mode where
  | gap
  | word (start : Position) (text : List Char)
  | comment
  | quote (start : Position) (text : List Char)
  /-- After a backslash in a quote; `mark` is its place. -/
  | escape (start : Position) (text : List Char) (mark : Position)
  deriving DecidableEq, Repr

/-- The scanner between two characters. Finished tokens and statements stand last one first. -/
structure Scan where
  mode : Mode
  tokens : List Token
  statements : List Statement
  /-- The place of the next character. -/
  position : Position
  deriving DecidableEq, Repr

/-- The place after a character at this place. -/
def Position.after (p : Position) (c : Char) : Position :=
  if c = '\n' then ⟨p.line + 1, 1⟩ else ⟨p.line, p.column + 1⟩

namespace Scan

def start : Scan := ⟨.gap, [], [], ⟨1, 1⟩⟩

/-- The character that an escape stands for. -/
def unescape? : Char → Option Char
  | 'n' => some '\n'
  | 't' => some '\t'
  | '\\' => some '\\'
  | '"' => some '"'
  | '0' => some '\x00'
  | _ => none

/-- The finished tokens together with the word that is being read. -/
def allTokens (s : Scan) : List Token :=
  match s.mode with
  | .word start text => ⟨String.ofList text.reverse, start, false⟩ :: s.tokens
  | _ => s.tokens

/-- The statements together with the one that ends here, if it has a token. -/
def allStatements (s : Scan) : List Statement :=
  match Statement.ofTokens? s.allTokens.reverse with
  | some statement => statement :: s.statements
  | none => s.statements

/-- Reads a character outside of comments and quotes. -/
def stepPlain (s : Scan) (c : Char) : Scan :=
  let next := s.position.after c
  if c = '#' then ⟨.comment, s.allTokens, s.statements, next⟩
  else if c = '"' then ⟨.quote s.position [], s.allTokens, s.statements, next⟩
  else if c = ';' then ⟨.gap, [], s.allStatements, next⟩
  else if c = ',' ∨ Text.isBlank c then ⟨.gap, s.allTokens, s.statements, next⟩
  else match s.mode with
    | .word start text => ⟨.word start (c :: text), s.tokens, s.statements, next⟩
    | _ => ⟨.word s.position [c], s.tokens, s.statements, next⟩

def step (s : Scan) (c : Char) : Except AssemblyError Scan :=
  let next := s.position.after c
  match s.mode with
  | .gap | .word _ _ => .ok (s.stepPlain c)
  | .comment =>
    .ok ⟨if c = '\n' then .gap else .comment, s.tokens, s.statements, next⟩
  | .quote start text =>
    .ok <|
      if c = '"' then
        ⟨.gap, ⟨String.ofList text.reverse, start, true⟩ :: s.tokens, s.statements, next⟩
      else if c = '\\' then ⟨.escape start text s.position, s.tokens, s.statements, next⟩
      else ⟨.quote start (c :: text), s.tokens, s.statements, next⟩
  | .escape start text mark =>
    match unescape? c with
    | some e => .ok ⟨.quote start (e :: text), s.tokens, s.statements, next⟩
    | none => .error (.statement mark (.invalidEscape c))

/-- The statements of the text that ends here. No quote and no statement may be open. -/
def finish (s : Scan) : Except AssemblyError (List Statement) :=
  match s.mode with
  | .quote start _ | .escape start _ _ => .error (.text start .openQuote)
  | _ =>
    match s.allTokens.getLast? with
    | some first => .error (.text first.position .openStatement)
    | none => .ok s.statements.reverse

/-- Reads characters one after the other. -/
def run (s : Scan) (text : List Char) : Except AssemblyError Scan := text.foldlM step s

theorem run_append (s : Scan) (front back : List Char) :
    s.run (front ++ back) = s.run front >>= fun t => t.run back := by
  simp [run]

end Scan

/-- The statements of a source text. -/
def tokenize (source : String) : Except AssemblyError (List Statement) := do
  (← Scan.start.run source.toList).finish

end RegisterMachine
