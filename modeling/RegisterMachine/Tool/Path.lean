/-!
File paths as text: names with slashes between them. Repeated slashes, slashes at the end and the
name `.`, except at the front, mean nothing.
-/

namespace RegisterMachine.Path

/-- Drops what means nothing from the end of a path; the path is given from its end. A lone slash,
which is the root, stays. -/
def dropIdle : List Char → List Char
  | ['/'] => ['/']
  | '/' :: rest => dropIdle rest
  | '.' :: rest@('/' :: _) => dropIdle rest
  | path => path

/-- The path from its end, without what means nothing there. -/
def reversed (path : String) : List Char := dropIdle path.toList.reverse

/-- The path of the folder that a path lies in. The root and the empty path lie in none. -/
def parent? (path : String) : Option String :=
  match reversed path with
  | [] | ['/'] => none
  | r => some (String.ofList (dropIdle (r.dropWhile (· != '/'))).reverse)

/-- The last name of a path, where it is one of a file or folder; given from its end. -/
def name? (path : String) : Option (List Char) :=
  match (reversed path).takeWhile (· != '/') with
  | [] | ['.'] | ['.', '.'] => none
  | name => some name

/-- A name given from its end, parted at its last dot. A dot in front parts nothing. -/
def splitName (name : List Char) : String × Option String :=
  match name.dropWhile (· != '.') with
  | [] | ['.'] => (String.ofList name.reverse, none)
  | _ :: stem =>
    (String.ofList stem.reverse, some (String.ofList (name.takeWhile (· != '.')).reverse))

/-- The last name without its extension; empty where the path has no name. -/
def stem (path : String) : String := ((name? path).map fun name => (splitName name).1).getD ""

/-- What stands behind the last dot of the last name. -/
def extension? (path : String) : Option String := (name? path).bind fun name => (splitName name).2

/-- The path of a name in a folder. -/
def inside (folder name : String) : String :=
  if folder.isEmpty then name
  else if folder.toList.getLast? = some '/' then folder ++ name
  else folder ++ "/" ++ name

/-- The path with another extension, in the same folder. -/
def withExtension (path extension : String) : String :=
  inside ((parent? path).getD ".") (stem path ++ "." ++ extension)

end RegisterMachine.Path
