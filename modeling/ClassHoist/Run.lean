import ClassHoist.Arguments
import ClassHoist.Config
import ClassHoist.FileReport
import ClassHoist.Selection

/-! # Runs

A run is planned from its arguments, its configuration and the names of the files there are; only
then are files processed. What the arguments switch on the configuration cannot switch off.
-/

namespace ClassHoist

/-- The name of the configuration file of a workspace. -/
def Config.fileName : Path := Path.ofString "deep-classes.json"

/-- The configuration in a file. -/
def Config.load (store : FileStore) (path : Path) : Except RunError Config :=
  match store.text? path with
  | none => .error (.unreadableConfig path)
  | some text => (Config.ofText? text).mapError (.invalidConfig path ·)

/-- The configuration of a workspace: that in the file that is named, or else that in the usual file
if there is one. -/
def Config.find (store : FileStore) (workspace : Path) (named : Option Path) :
    Except RunError Config :=
  match named with
  | some path => Config.load store (workspace.join path)
  | none =>
    let path := workspace.join Config.fileName
    if (store.file? path).isSome then Config.load store path else .ok Config.default

/-- What a run does: how it processes files, and which files, in order. -/
structure Plan where
  job : Job
  files : List Path

/-- What the arguments ask for, with paths relative to the current folder. -/
def Plan.ofArguments (store : FileStore) (current : Path) (arguments : Arguments) :
    Except RunError Plan := do
  let workspace := current.join arguments.workspace
  let config ← Config.find store workspace arguments.config
  let options : Options :=
    ⟨arguments.rtl || config.rtl, arguments.globalPrefix || config.globalPrefix⟩
  let ignored ← globsOf (arguments.ignore ++ config.ignore ++ usualIgnores)
  let outDir := arguments.outDir.map workspace.join
  let selection : Selection := ⟨workspace, config.fileExtensions, ignored, outDir⟩
  let files ← selection.files store arguments.paths
  return ⟨⟨workspace, options, outDir, arguments.sourceMap⟩, files⟩

/-- Run: the store afterwards, and what became of each file unless the run could not start. -/
def run (store : FileStore) (current : Path) (arguments : Arguments) :
    FileStore × Except RunError (List FileReport) :=
  match Plan.ofArguments store current arguments with
  | .error error => (store, .error error)
  | .ok plan =>
    let (store, reports) := plan.job.processAll store plan.files
    (store, .ok reports)

/-- The folder that the workspace is relative to; a whole path is not relative to any. -/
def Arguments.base (arguments : Arguments) (current : Except FolderError Path) :
    Except FolderError Path :=
  if arguments.workspace.isAbsolute then .ok arguments.workspace else current

/-- Run in the current folder, which need not be known if the workspace is given by a whole path. -/
def start (store : FileStore) (current : Except FolderError Path) (arguments : Arguments) :
    FileStore × Except StartError (List FileReport) :=
  match arguments.base current with
  | .error error => (store, .error (.noFolder error))
  | .ok base =>
    let (store, result) := run store base arguments
    (store, result.mapError .noPlan)

end ClassHoist
