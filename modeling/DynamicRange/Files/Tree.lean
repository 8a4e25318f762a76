import DynamicRange.Files.Path

/-!
# File trees

Files and folders, and the operations on them. Paths are resolved segment by segment, as an
operating system does: from the root or from the working folder, `.` stays, `..` goes up, and
whatever is not last has to be a folder. So `..` does not undo a segment that leads nowhere.

## Main definitions

* `FileError`, `FileTree`, `FileTree.find`
* `FileTree.readBytes`, `FileTree.readText`, `FileTree.write`, `FileTree.makeFolders`
-/

namespace DynamicRange

/-- Why an operation on a file fails. -/
inductive FileError where
  /-- There is nothing under the path. -/
  | missing
  /-- A file stands where a folder is needed. -/
  | notAFolder
  /-- A folder stands where a file is needed. -/
  | isAFolder
  /-- Something stands where a folder is to be created. -/
  | taken
  /-- A segment of the path, or the path, is too long. -/
  | nameTooLong
  /-- The path holds a null character. -/
  | nullInName
  /-- The content is not text. -/
  | notText
deriving DecidableEq, Repr

/-- The reason in words. -/
def FileError.message : FileError → String
  | missing => "No such file or directory (os error 2)"
  | notAFolder => "Not a directory (os error 20)"
  | isAFolder => "Is a directory (os error 21)"
  | taken => "File exists (os error 17)"
  | nameTooLong => "File name too long (os error 36)"
  | nullInName => "file name contained an unexpected NUL byte"
  | notText => "stream did not contain valid UTF-8"

/-- A file with its content, or a folder. -/
inductive FileNode where
  | file (bytes : List UInt8)
  | folder

/-- Files and folders. -/
structure FileTree where
  /-- The segments of the working folder. -/
  home : List String
  /-- The nodes by the segments of their paths from the root. -/
  nodes : List (List String × FileNode)

/-- A path taken apart. -/
structure Route where
  /-- The segments of the folder that the path starts from. -/
  start : List String
  /-- The segments of the path, the last one first. Empty ones at the end are left out. -/
  names : List String
  /-- Whether slashes follow the last segment. -/
  isSlashed : Bool

/-- What the last segment of a path stands for. -/
inductive Target where
  /-- A folder that is there: the segment is `.` or `..`, or there is none. -/
  | folder
  /-- A name in a folder that is there. -/
  | name (address : List String) (isSlashed : Bool)

namespace FileTree

/-- The tree with nothing but an empty working folder. -/
def ofHome (home : List String) : FileTree :=
  ⟨home, (List.range home.length).map fun n : Nat => (home.take (n + 1), .folder)⟩

/-- The node with the given segments. Without segments it is the root. -/
def node? (t : FileTree) (address : List String) : Option FileNode :=
  if address.isEmpty then some .folder else t.nodes.lookup address

/-- Adds or replaces a node. -/
def put (t : FileTree) (address : List String) (node : FileNode) : FileTree :=
  { t with nodes := (address, node) :: t.nodes.filter fun entry => entry.1 != address }

/-- What an address holds. A name of more than 255 bytes is refused. -/
def look (t : FileTree) (address : List String) : Except FileError (Option FileNode) :=
  if address.getLast?.any fun name => 255 < name.utf8ByteSize then .error .nameTooLong
  else .ok (t.node? address)

/-- Follows segments that all lead to folders. The root is its own parent. -/
def enter (t : FileTree) (here : List String) : List String → Except FileError (List String)
  | [] => .ok here
  | name :: rest =>
    if name = "" ∨ name = "." then t.enter here rest
    else if name = ".." then t.enter here.dropLast rest
    else
      match t.look (here ++ [name]) with
      | .ok (some .folder) => t.enter (here ++ [name]) rest
      | .ok (some (.file _)) => .error .notAFolder
      | .ok none => .error .missing
      | .error e => .error e

/-- Takes a path apart. A path of 4096 bytes is too long. -/
def route (t : FileTree) (path : String) : Except FileError Route :=
  if path.contains '\x00' then .error .nullInName
  else if path.isEmpty then .error .missing
  else if 4096 ≤ path.utf8ByteSize then .error .nameTooLong
  else
    let start := if path.startsWith "/" then [] else t.home
    let names := ((Path.segments path.toList).map String.ofList).reverse
    let proper := names.dropWhile (·.isEmpty)
    .ok { start, names := proper, isSlashed := proper.length < names.length }

/-- What the last segment stands for. The segments before it must lead to folders. -/
def target (t : FileTree) (r : Route) : Except FileError Target :=
  match r.names with
  | [] => .ok .folder
  | last :: above => do
    let folder ← t.enter r.start above.reverse
    if last = "." ∨ last = ".." then return .folder
    return .name (folder ++ [last]) r.isSlashed

/-- The node that a route leads to. A slash after the name of a file is refused. -/
def nodeAt (t : FileTree) (r : Route) : Except FileError FileNode := do
  match ← t.target r with
  | .folder => return .folder
  | .name address isSlashed =>
    match ← t.look address with
    | none => throw .missing
    | some (.file bytes) => if isSlashed then throw .notAFolder else return .file bytes
    | some .folder => return .folder

/-- The node that a path leads to. -/
def find (t : FileTree) (path : String) : Except FileError FileNode := do
  t.nodeAt (← t.route path)

/-- Whether a path leads to a file. -/
def isFile (t : FileTree) (path : String) : Bool :=
  match t.find path with
  | .ok (.file _) => true
  | _ => false

/-- Whether a path leads to a file or folder. -/
def isPresent (t : FileTree) (path : String) : Bool := (t.find path).isOk

/-- The content of a file. -/
def readBytes (t : FileTree) (path : String) : Except FileError (List UInt8) := do
  match ← t.find path with
  | .file bytes => return bytes
  | .folder => throw .isAFolder

/-- The content of a text file. -/
def readText (t : FileTree) (path : String) : Except FileError String := do
  let bytes ← t.readBytes path
  match String.fromUTF8? ⟨bytes.toArray⟩ with
  | some text => return text
  | none => throw .notText

/-- Writes a file, which is created if need be. Its folder must be there. A slash after the name
asks for a folder, whatever the name stands for. -/
def write (t : FileTree) (path : String) (bytes : List UInt8) : Except FileError FileTree := do
  match ← t.target (← t.route path) with
  | .folder | .name _ true => throw .isAFolder
  | .name address false =>
    match ← t.look address with
    | some .folder => throw .isAFolder
    | some (.file _) | none => return t.put address (.file bytes)

/-- Creates a folder where there is nothing, in a folder that is there. -/
def makeFolder (t : FileTree) (r : Route) : Except FileError FileTree := do
  match ← t.target r with
  | .folder => throw .taken
  | .name address _ =>
    match ← t.look address with
    | some _ => throw .taken
    | none => return t.put address .folder

/-- Creates a folder, unless the route already leads to one. -/
def ensureFolder (t : FileTree) (r : Route) : Except FileError FileTree :=
  match t.makeFolder r, t.nodeAt r with
  | .error .taken, .ok .folder => .ok t
  | result, _ => result

/-- Creates the folder with the given segments, the last one first, and those on the way to it that
lack. What is on the way is looked at only if the folder cannot be created at once. -/
def makeFoldersFrom (t : FileTree) (start : List String) :
    List String → FileTree × Except FileError PUnit
  | [] => (t, .ok ())
  | name :: above =>
    match t.ensureFolder ⟨start, name :: above, false⟩ with
    | .ok t => (t, .ok ())
    | .error .missing =>
      match t.makeFoldersFrom start above with
      | (t, .error e) => (t, .error e)
      | (t, .ok _) =>
        match t.ensureFolder ⟨start, name :: above, false⟩ with
        | .ok t => (t, .ok ())
        | .error e => (t, .error e)
    | .error e => (t, .error e)

/-- Creates the folder of a path and those on the way to it. What was created before a failure
stays. -/
def makeFolders (t : FileTree) (path : String) : FileTree × Except FileError PUnit :=
  match t.route path with
  | .ok r => t.makeFoldersFrom r.start (r.names.filter fun name => name ≠ "" ∧ name ≠ ".")
  | .error e => (t, .error e)

end FileTree

end DynamicRange
