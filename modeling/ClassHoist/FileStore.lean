import ClassHoist.Path

/-! # Files and folders

A store holds the files and folders of a file system, each at a place below its one root. Paths
lead from the root to places: every segment is looked up in a folder that exists, so that `..` after
a file or after nothing leads nowhere.
-/

namespace ClassHoist

/-- The names of entries from the root down to a file or folder. -/
abbrev Place := List Text

/-- The place that a segment of a path leads to. -/
def Place.enter (place : Place) (segment : Text) : Place :=
  if Path.isIdle segment then place
  else if segment = ['.', '.'] then place.dropLast
  else place ++ [segment]

/-- What a file holds: a text, or bytes that are no text. -/
inductive Content where
  | text (text : Text)
  | binary
  deriving DecidableEq, Repr

/-- The files and the folders below a root, the root itself apart. -/
structure FileStore where
  files : List (Place × Content)
  folders : List Place
  deriving DecidableEq, Repr

namespace FileStore

/-- There is nothing but the root. -/
def empty : FileStore := ⟨[], []⟩

instance : Inhabited FileStore := ⟨empty⟩

/-- There is a folder at a place. -/
def isFolder (store : FileStore) (place : Place) : Bool :=
  place.isEmpty || store.folders.contains place

/-- The content of the file at a place. -/
def content? (store : FileStore) (place : Place) : Option Content := store.files.lookup place

/-- The place that segments lead to from a place, whether or not there is anything. -/
def follow (store : FileStore) (place : Place) : List Text → Option Place
  | [] => some place
  | segment :: rest =>
    if store.isFolder place then follow store (place.enter segment) rest else none

/-- The place that a path leads to. -/
def locate (store : FileStore) (path : Path) : Option Place := store.follow [] path.segments

/-- The content of the file at the end of a path. -/
def file? (store : FileStore) (path : Path) : Option Content := do
  store.content? (← store.locate path)

/-- The place of the folder at the end of a path. -/
def folder? (store : FileStore) (path : Path) : Option Place :=
  (store.locate path).filter store.isFolder

/-- The text of the file at the end of a path. -/
def text? (store : FileStore) (path : Path) : Option Text :=
  match store.file? path with
  | some (.text text) => some text
  | _ => none

/-- The ways from a folder to the files below it. -/
def filesBelow (store : FileStore) (folder : Place) : List Place :=
  store.files.filterMap fun (place, _) => folder.isPrefixOf? place

/-- An entry of a folder can have this name: it has no null character and at most 255 bytes. -/
def isName (segment : Text) : Bool := !segment.contains '\x00' && segment.bytes ≤ 255

/-- The store with a folder added. -/
def addFolder (store : FileStore) (place : Place) : FileStore :=
  { store with folders := place :: store.folders }

/-- The store with a file added, or with another content of the file that is there. -/
def put (store : FileStore) (place : Place) (content : Content) : FileStore :=
  { store with files := (place, content) :: store.files.filter (·.1 ≠ place) }

/-- The store with the folders along some segments, and the place that they lead to, unless a file
or a name that cannot be is in the way. -/
def makeFolders (store : FileStore) (place : Place) : List Text → FileStore × Option Place
  | [] => (store, some place)
  | segment :: rest =>
    let next := place.enter segment
    if store.isFolder next then makeFolders store next rest
    else if isName segment && (store.content? next).isNone then
      makeFolders (store.addFolder next) next rest
    else (store, none)

/-- The store with a file at the end of a path and with the folders on the way there, and whether
that could be done. Folders made before something is in the way stay. -/
def write (store : FileStore) (path : Path) (content : Content) : FileStore × Bool :=
  let segments := path.segments
  match store.makeFolders [] segments.dropLast with
  | (store, none) => (store, false)
  | (store, some folder) =>
    let segment := segments.getLastD []
    let place := folder.enter segment
    if store.isFolder place || !isName segment then (store, false)
    else (store.put place content, true)

/-- The files of a later store that are not the same in an earlier one. -/
def changes (before after : FileStore) : List (Place × Content) :=
  after.files.filter fun (place, content) => before.content? place ≠ some content

end FileStore

end ClassHoist
