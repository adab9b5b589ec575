import ClassHoist.Text.Pattern

/-! # Paths

A path is kept as it is spelled, but compared by its parts: repeated and trailing slashes and parts
that are a single point say nothing. A part `..` is kept, since what it leads to depends on the
files.
-/

namespace ClassHoist

/-- A part of a path that says something: the root, as the first part of an absolute path, the
folder above, or an entry of a folder. -/
inductive Part where
  | root
  | parent
  | entry (name : Text)
  deriving DecidableEq, Repr

/-- The root comes first, then the folder above, then entries by the code points of their names. -/
def Part.key : Part → List Nat
  | .root => [0]
  | .parent => [1]
  | .entry name => 2 :: name.map Char.toNat

/-- The order of keys: number by number. -/
def Part.keyLe : List Nat → List Nat → Bool
  | [], _ => true
  | _ :: _, [] => false
  | a :: first, b :: second => if a = b then keyLe first second else a < b

/-- The order of lists of parts: a list comes before those that continue it, and the first
difference decides between others. -/
def Part.listLe : List Part → List Part → Bool
  | [], _ => true
  | _ :: _, [] => false
  | a :: first, b :: second => if a = b then listLe first second else keyLe a.key b.key

/-- A path, by its spelling. -/
structure Path where
  spelling : Text
  deriving DecidableEq, Repr, Inhabited

namespace Path

/-- The path with a given spelling. -/
def ofString (spelling : String) : Path := ⟨spelling.toList⟩

instance : ToString Path := ⟨fun path => String.ofList path.spelling⟩

/-- The path starts at the root. -/
def isAbsolute (path : Path) : Bool := path.spelling.head? == some '/'

/-- The texts between the slashes. -/
def segments (path : Path) : List Text := Text.splitOn '/' path.spelling

/-- A segment that says nothing. -/
def isIdle (segment : Text) : Bool := segment == [] || segment == ['.']

/-- The part that a segment stands for. -/
def partOfSegment (segment : Text) : Part :=
  if segment = ['.', '.'] then .parent else .entry segment

/-- The parts of a path. -/
def parts (path : Path) : List Part :=
  let inner := (path.segments.filter (!isIdle ·)).map partOfSegment
  if path.isAbsolute then .root :: inner else inner

/-- The order of paths: part by part. -/
def le (first second : Path) : Bool := Part.listLe first.parts second.parts

/-- The path is the folder or lies below it, going by the parts alone. -/
def isWithin (path folder : Path) : Bool := folder.parts.isPrefixOf path.parts

/-- A path as seen from a folder. -/
def join (folder path : Path) : Path :=
  if path.isAbsolute then path
  else if folder.spelling = [] ∨ folder.spelling.getLast? = some '/' then
    ⟨folder.spelling ++ path.spelling⟩
  else ⟨folder.spelling ++ '/' :: path.spelling⟩

/-- The path with more text at its end. -/
def extend (path : Path) (text : Text) : Path := ⟨path.spelling ++ text⟩

/-- The segments after the first ones that say something. -/
def dropSegments : Nat → List Text → List Text
  | 0, segments => segments
  | _ + 1, [] => []
  | count + 1, segment :: rest =>
    if isIdle segment then dropSegments (count + 1) rest else dropSegments count rest

/-- The segments without those at either end that say nothing. -/
def trimSegments (segments : List Text) : List Text :=
  ((segments.dropWhile isIdle).reverse.dropWhile isIdle).reverse

/-- The rest of a path below a folder, as it is spelled. -/
def below? (path folder : Path) : Option Path :=
  if path.isWithin folder then
    let count := (folder.parts.filter (· ≠ .root)).length
    some ⟨['/'].intercalate (trimSegments (dropSegments count path.segments))⟩
  else none

/-- The rest of a path below a folder, or the path itself where it does not lie below. -/
def relativeTo (path folder : Path) : Path := (path.below? folder).getD path

/-- The paths without each that has the same parts as the one before. -/
def distinctAfter (last : Path) : List Path → List Path
  | [] => []
  | path :: rest =>
    if path.parts = last.parts then distinctAfter last rest else path :: distinctAfter path rest

/-- The paths in order, each once; of several spellings the first one stays. -/
def arrange (paths : List Path) : List Path :=
  match paths.mergeSort le with
  | [] => []
  | path :: rest => path :: distinctAfter path rest

end Path

end ClassHoist
