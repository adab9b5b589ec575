import ClassHoist.FileStore
import ClassHoist.RunError

/-! # The files of a run

A file that is named is always processed. Of the files below a folder that is named, those count
that have one of the endings, are not left out by a pattern and do not lie where processed files
go.
-/

namespace ClassHoist

/-- The patterns of files that are left out in every run. -/
def usualIgnores : List Text :=
  ["**/node_modules/**", "**/.svelte-kit/**", "**/dist/**"].map String.toList

/-- The globs that patterns spell. -/
def globsOf : List Text → Except RunError (List Glob)
  | [] => .ok []
  | pattern :: rest =>
    match Glob.ofText? pattern with
    | .error problem => .error (.invalidGlob pattern problem)
    | .ok glob => (globsOf rest).map (glob :: ·)

/-- Which files below a folder count: the folder that patterns are relative to, the endings of the
names of files that count, and what does not count, files that are described by a glob and files in
the folder for processed files. -/
structure Selection where
  workspace : Path
  extensions : List Text
  ignored : List Glob
  outDir : Option Path

namespace Selection

/-- A file that was found below a folder counts. -/
def keeps (selection : Selection) (name : Text) (file : Path) : Bool :=
  selection.extensions.any (·.isSuffixOf name)
    && !selection.outDir.any (file.isWithin ·)
    && !selection.ignored.any (·.accepts (file.relativeTo selection.workspace).spelling)

/-- The files that count below a folder. -/
def filesBelow (selection : Selection) (store : FileStore) (path : Path) (folder : Place) :
    List Path :=
  (store.filesBelow folder).filterMap fun names =>
    let file := names.foldl (fun path name => path.join ⟨name⟩) path
    if selection.keeps (names.getLastD []) file then some file else none

/-- The files at a path. -/
def filesAt (selection : Selection) (store : FileStore) (path : Path) :
    Except RunError (List Path) :=
  let path := selection.workspace.join path
  if (store.file? path).isSome then .ok [path]
  else
    match store.folder? path with
    | some folder => .ok (selection.filesBelow store path folder)
    | none => .error (.missingPath path)

/-- The files at several paths, one after the other. -/
def filesAtAll (selection : Selection) (store : FileStore) :
    List Path → Except RunError (List Path)
  | [] => .ok []
  | path :: rest =>
    match selection.filesAt store path with
    | .error error => .error error
    | .ok files => (selection.filesAtAll store rest).map (files ++ ·)

/-- The files at several paths in order, each of them once. -/
def files (selection : Selection) (store : FileStore) (paths : List Path) :
    Except RunError (List Path) :=
  (selection.filesAtAll store paths).map Path.arrange

end Selection

end ClassHoist
