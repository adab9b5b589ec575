import ClassHoist.FileStore
import ClassHoist.Hoist

/-! # Processing one file -/

namespace ClassHoist

/-- Why a file was not processed: it holds no text, what it was to be turned into could not be
written, or its text could not be processed. -/
inductive FileFailure where
  | unreadable (path : Path)
  | unwritable (path : Path)
  | rejected (path : Path) (error : HoistError)
  deriving DecidableEq, Repr

/-- The wording of a failure. -/
def FileFailure.message : FileFailure → String
  | .unreadable path => s!"failed to read {path}"
  | .unwritable path => s!"failed to write {path}"
  | .rejected path error => s!"{path}: {error.message}"

/-- The code by which a kind of failure is known, if it has one. -/
def FileFailure.code? : FileFailure → Option String
  | .rejected .. => some "svelte_deep_classes::preprocess"
  | _ => none

/-- A processed file: the text it was turned into, where that comes from, and whether it is the text
the file had. -/
structure Processed where
  code : Text
  map : Option SourceMap.Encoding
  unchanged : Bool

/-- What became of a file, as seen from the workspace: the result, or why there is none. -/
structure FileReport where
  path : Path
  outcome : Except FileFailure Processed

/-- How files are processed: the folder that reported paths are relative to, what to do besides
moving the classes of components, the folder for processed files if they are to be written, and
whether source maps are written with them. -/
structure Job where
  workspace : Path
  options : Options
  outDir : Option Path
  sourceMap : Bool

namespace Job

/-- The store with a text written to a path, and the failure to do so. -/
def writeText (store : FileStore) (path : Path) (text : Text) : FileStore × Option FileFailure :=
  match store.write path (.text text) with
  | (store, true) => (store, none)
  | (store, false) => (store, some (.unwritable path))

/-- The store with a processed file and its source map written, if they are asked for. -/
def writeOutput (job : Job) (store : FileStore) (relative : Path) (hoisted : Hoisted) :
    FileStore × Option FileFailure :=
  match job.outDir with
  | none => (store, none)
  | some outDir =>
    let target := outDir.join relative
    match writeText store target hoisted.code with
    | (store, some failure) => (store, some failure)
    | (store, none) =>
      match hoisted.map, job.sourceMap with
      | some map, true => writeText store (target.extend ".map".toList) map.text.toList
      | _, _ => (store, none)

/-- Process a file: the store afterwards and what became of the file. -/
def process (job : Job) (store : FileStore) (file : Path) : FileStore × FileReport :=
  let relative := file.relativeTo job.workspace
  match store.text? file with
  | none => (store, ⟨relative, .error (.unreadable relative)⟩)
  | some content =>
    match hoist job.options content (some (String.ofList relative.spelling)) with
    | .error error => (store, ⟨relative, .error (.rejected relative error)⟩)
    | .ok hoisted =>
      match job.writeOutput store relative hoisted with
      | (store, some failure) => (store, ⟨relative, .error failure⟩)
      | (store, none) =>
        (store, ⟨relative, .ok ⟨hoisted.code, hoisted.map, hoisted.code == content⟩⟩)

/-- Process files one after the other. -/
def processAll (job : Job) (store : FileStore) : List Path → FileStore × List FileReport
  | [] => (store, [])
  | file :: rest =>
    let (store, report) := job.process store file
    let (store, reports) := job.processAll store rest
    (store, report :: reports)

end Job

end ClassHoist
