import ClassHoist.Report
import ClassHoist.Run

/-! # The command

Runs are planned and carried out on a store. Before a run the store is filled from the disk with the
names of files and the contents of those that the run reads; after it the files that have changed in
the store are written to the disk.
-/

namespace ClassHoist.Command

/-- The place that a path leads to, whatever there is. -/
def placeOf (path : Path) : Place := path.segments.foldl Place.enter []

/-- The absolute path of a place. -/
def pathOf (place : Place) : String :=
  "/" ++ "/".intercalate (place.map String.ofList)

/-- The store with everything below a folder on the disk. Links are not followed, and the contents
of files are left out. -/
partial def listFolder (store : FileStore) (place : Place) : IO FileStore := do
  let mut store := store
  for entry in ← ((← IO.currentDir) / pathOf place).readDir do
    let below := place ++ [entry.fileName.toList]
    match (← entry.path.symlinkMetadata).type with
    | .dir => store ← listFolder (store.addFolder below) below
    | .file => store := { store with files := (below, .binary) :: store.files }
    | _ => pure ()
  return store

/-- The store with what there is at a path on the disk. -/
def listPath (store : FileStore) (path : Path) : IO FileStore := do
  let disk := (← IO.currentDir) / toString path
  let place := placeOf path
  if !(← disk.pathExists) then return store
  let store := (store.makeFolders [] path.segments.dropLast).1
  if ← disk.isDir then listFolder (store.makeFolders [] path.segments).1 place
  else return store.put place .binary

/-- The store with the content of the file at a path on the disk. -/
def readFile (store : FileStore) (path : Path) : IO FileStore := do
  let bytes ← IO.FS.readBinFile (toString path)
  let content := match String.fromUTF8? bytes with
    | some text => Content.text text.toList
    | none => .binary
  return store.put (placeOf path) content

/-- The store with the content of the file at a path, if there is one. -/
def readListed (store : FileStore) (path : Path) : IO FileStore :=
  if (store.file? path).isSome then readFile store path else return store

/-- The part of the disk that a run can come across. -/
def storeFor (current : Path) (arguments : Arguments) : IO FileStore := do
  let workspace := current.join arguments.workspace
  let config := workspace.join (arguments.config.getD Config.fileName)
  let roots :=
    workspace :: config :: (arguments.paths ++ arguments.outDir.toList).map workspace.join
  let listed ← roots.foldlM listPath FileStore.empty
  let store ← readListed listed config
  match Plan.ofArguments store current arguments with
  | .error _ => return store
  | .ok plan => plan.files.foldlM readListed store

/-- Write a changed file to the disk. -/
def writeChange (change : Place × Content) : IO Unit := do
  match change with
  | (place, .text text) =>
    IO.FS.createDirAll (pathOf place.dropLast)
    IO.FS.writeFile (pathOf place) (String.ofList text)
  | (_, .binary) => return

/-- The path of the current folder, if it is known. -/
def currentFolder : IO (Except FolderError Path) := do
  match ← IO.currentDir.toBaseIO with
  | .ok folder => return .ok (Path.ofString folder.toString)
  | .error _ => return .error .unknown

/-- Run with usable arguments; the exit status tells whether every file was processed. -/
def runWith (arguments : Arguments) : IO UInt32 := do
  let current ← currentFolder
  let store ← match arguments.base current with
    | .ok base => storeFor base arguments
    | .error _ => pure FileStore.empty
  let (after, result) := start store current arguments
  (store.changes after).forM writeChange
  match result with
  | .error error =>
    IO.eprintln s!"Error: {error.message}"
    return 1
  | .ok reports =>
    let report := Report.ofReports arguments.output arguments.outDir.isSome reports
    IO.print report.output
    report.failures.forM fun failure => IO.eprintln s!"Error: {failure.message}"
    report.notes.forM fun note => IO.eprintln note
    return if report.summary.failed = 0 then 0 else 1

end ClassHoist.Command

/-- Process the files that the arguments name. -/
def main (arguments : List String) : IO UInt32 := do
  match ClassHoist.Arguments.ofList? (arguments.map String.toList) with
  | .error error =>
    if error.exitStatus = 0 then IO.println error.message else IO.eprintln error.message
    return error.exitStatus.toUInt32
  | .ok arguments => ClassHoist.Command.runWith arguments
