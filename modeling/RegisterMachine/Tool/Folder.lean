import RegisterMachine.Tool.Script

/-!
A folder of files held in memory. A path is followed name by name, and every name but the last must
be that of a folder. Names and paths have a greatest length in bytes. Outside the folder there are
the folders above it and the null device, and nothing else.
-/

namespace RegisterMachine

/-- The files below a folder, each by the names on the way to it. Folders are what files lie in. -/
structure Folder where
  files : List (List String × List UInt8)
  deriving DecidableEq

/-- Where a path leads, whether anything is there or not. -/
inductive Place where
  | below (names : List String)
  /-- Some folder above this one. -/
  | above
  /-- The folder that absolute paths begin in. -/
  | root
  /-- The folder `/dev`. -/
  | devices
  /-- The file `/dev/null`: empty for its readers, and what is written to it is lost. -/
  | sink
  | beside
  deriving DecidableEq, Repr

inductive FolderEntry where
  | file (bytes : List UInt8)
  | directory
  deriving DecidableEq, Repr

namespace Place

/-- Follows one name. -/
def step (place : Place) (name : String) : Place :=
  if name = "" ∨ name = "." then place
  else if name = ".." then
    match place with
    | .below [] | .above => .above
    | .below names => .below names.dropLast
    | .root | .devices => .root
    | .sink | .beside => .beside
  else
    match place with
    | .below names => .below (names ++ [name])
    | .root => if name = "dev" then .devices else .beside
    | .devices => if name = "null" then .sink else .beside
    | .above | .sink | .beside => .beside

/-- Where following a path begins. -/
def start (path : List Char) : Place := if path.head? = some '/' then .root else .below []

end Place

namespace Folder

/-- The names between the slashes of a path. -/
def names (path : List Char) : List String := (path.splitOn '/').map String.ofList

/-- The greatest length of a name in bytes. -/
def longestName : Nat := 255

/-- The greatest length of a path in bytes. -/
def longestPath : Nat := 4095

/-- What is at a place. -/
def entry? (f : Folder) : Place → Option FolderEntry
  | .below names =>
    match f.files.lookup names with
    | some bytes => some (.file bytes)
    | none =>
      if names = [] ∨ f.files.any fun file => names.isPrefixOf file.1 then some .directory else none
  | .above | .root | .devices => some .directory
  | .sink => some (.file [])
  | .beside => none

/-- Follows one name from a place, which must be a folder. -/
def enter (f : Folder) (place : Place) (name : String) : Except FileError Place :=
  match f.entry? place with
  | none => .error .notFound
  | some (.file _) => .error .notDirectory
  | some .directory =>
    if longestName < name.utf8ByteSize then .error .nameTooLong else .ok (place.step name)

/-- Follows the names of a path that begins at `start`. -/
def walk (f : Folder) (start : Place) (path : List Char) : Except FileError Place :=
  (names path).foldlM f.enter start

/-- Refuses a path that no call takes. -/
def checkPath (path : String) : Except FileError Unit :=
  if longestPath < path.utf8ByteSize then .error .nameTooLong
  else if path.isEmpty then .error .notFound
  else .ok ()

/-- What a path leads to. -/
def find (f : Folder) (path : String) : Except FileError FolderEntry := do
  checkPath path
  match f.entry? (← f.walk (Place.start path.toList) path.toList) with
  | some entry => .ok entry
  | none => .error .notFound

def read (f : Folder) (path : String) : Except FileError (List UInt8) := do
  match ← f.find path with
  | .file bytes => .ok bytes
  | .directory => .error .isDirectory

/-- Replaces a file or adds it behind the others. -/
def put (f : Folder) (names : List String) (bytes : List UInt8) : Folder :=
  if (f.files.lookup names).isSome then
    ⟨f.files.map fun file => if file.1 = names then (names, bytes) else file⟩
  else ⟨f.files ++ [(names, bytes)]⟩

/-- Writes a file. A path that ends in a slash is taken for a folder's; then the last name on it
does not matter, only the way there. -/
def write (f : Folder) (path : String) (bytes : List UInt8) : Except FileError Folder := do
  checkPath path
  let chars := path.toList
  let start := Place.start chars
  if chars.getLast? = some '/' then
    let way := (chars.reverse.dropWhile (· == '/')).dropWhile (· != '/')
    let _ ← f.walk start way.reverse
    .error .isDirectory
  else
    let place ← f.walk start chars
    match f.entry? place, place with
    | some .directory, _ => .error .isDirectory
    | _, .below names => .ok (f.put names bytes)
    | _, .sink => .ok f
    | _, _ => .error .notFound

end Folder

end RegisterMachine
