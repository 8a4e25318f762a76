import DynamicRange.Command.Run

/-!
# Program

Reads the files that the arguments name, runs the command on them, and puts the outcome in place.
-/

namespace DynamicRange.Program

/-- The path of a place from the root. -/
def absolutePath (address : List String) : String := "/" ++ "/".intercalate address

/-- What is found at a place. -/
def survey (address : List String) : IO (Option FileNode) := do
  let path := absolutePath address
  match ← (IO.FS.readBinFile path).toBaseIO with
  | .ok bytes => return some (.file bytes.toList)
  | .error _ =>
    match ← (IO.FS.realPath path).toBaseIO with
    | .ok _ => return some .folder
    | .error _ => return none

/-- Goes on by one segment of a path. -/
def advance (address : List String) (name : String) : List String :=
  if name = "" || name = "." then address
  else if name = ".." then address.dropLast
  else address ++ [name]

/-- The files and folders on the way along the arguments and the values of options. -/
def surveyAll (args : List String) : IO FileTree := do
  let home := ((← IO.currentDir).toString.splitOn "/").filter (!·.isEmpty)
  let values := args.flatMap fun arg => [arg, "=".intercalate ((arg.splitOn "=").drop 1)]
  let mut t := FileTree.ofHome home
  for value in values do
    if let .ok route := t.route value then
      let mut address := route.start
      for name in route.names.reverse do
        address := advance address name
        if (t.node? address).isNone then
          if let some node ← survey address then t := t.put address node
  return t

/-- Writes the nodes that a run has changed. -/
def settle (before after : FileTree) : IO Unit := do
  for (address, node) in after.nodes.reverse do
    match node, before.node? address with
    | .folder, some .folder => pure ()
    | .folder, _ => IO.FS.createDirAll (absolutePath address)
    | .file bytes, some (.file old) =>
      unless bytes = old do IO.FS.writeBinFile (absolutePath address) ⟨bytes.toArray⟩
    | .file bytes, _ => IO.FS.writeBinFile (absolutePath address) ⟨bytes.toArray⟩

/-- Runs the program. -/
def run (args : List String) : IO UInt32 := do
  let files ← surveyAll args
  let outcome := Command.run args files
  settle files outcome.files
  IO.print outcome.output
  IO.eprint outcome.errors
  return (outcome.code.getD 101).toUInt32

end DynamicRange.Program

/-- The entry point of the program. -/
def main (args : List String) : IO UInt32 := DynamicRange.Program.run args
