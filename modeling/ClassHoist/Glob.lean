import ClassHoist.Text.Pattern

/-! # Globs

A glob describes texts, such as the relative paths of files, byte by byte: a single wildcard and a
set stand for one byte, and a star for any bytes, slashes included. A double star between slashes
stands for whole folders.
-/

namespace ClassHoist

namespace Glob

/-- A piece of a glob. A literal stands for itself, `any` for one byte and `run` for any bytes. A
double star in front of a slash stands for nothing, a slash, or anything up to a slash; behind a
slash for the slash and anything; and between slashes for a slash, or two with anything between
them. A set stands for a byte of one of its ranges, or of none. Among alternatives those that
describe the empty text alone do not count. -/
inductive Item where
  | literal (c : Char)
  | any
  | run
  | leadingFolders
  | trailingFolders
  | innerFolders
  | set (negated : Bool) (ranges : List (Char × Char))
  | alternatives (branches : List (List Item))
  deriving Repr, Inhabited

/-- The bytes of a character. -/
def charBytes (c : Char) : List UInt8 := String.utf8EncodeChar c

/-- The bytes of a text. -/
def textBytes (text : Text) : List UInt8 := text.flatMap charBytes

/-- The byte of a slash. -/
def slash : UInt8 := 47

/-- The byte is in a range. The bytes of its two ends are written next to one another, and only the
last byte of the first end and the first byte of the second are the ends of a range of bytes. -/
def inRange (range : Char × Char) (byte : UInt8) : Bool :=
  let first := charBytes range.1
  let last := charBytes range.2
  first.contains byte || last.contains byte ||
    (first.getLastD 0 ≤ byte && byte ≤ last.headD 0 && range.1 ≠ range.2)

/-- The bytes that follow each place in `bytes`, its start and its end included. -/
def suffixes : List UInt8 → List (List UInt8)
  | [] => [[]]
  | byte :: rest => (byte :: rest) :: suffixes rest

/-- The bytes that follow each slash. -/
def afterSlashes : List UInt8 → List (List UInt8)
  | [] => []
  | byte :: rest => if byte = slash then rest :: afterSlashes rest else afterSlashes rest

mutual

/-- The item describes the empty text and nothing else. -/
def Item.isVoid : Item → Bool
  | .alternatives branches => areVoid branches
  | _ => false

/-- Each item describes the empty text and nothing else. -/
def isVoid : List Item → Bool
  | [] => true
  | item :: items => item.isVoid && isVoid items

/-- Each branch describes the empty text and nothing else. -/
def areVoid : List (List Item) → Bool
  | [] => true
  | branch :: branches => isVoid branch && areVoid branches

end

mutual

/-- What can follow the bytes that an item describes. -/
def Item.rests : Item → List UInt8 → List (List UInt8)
  | .literal c, bytes => ((charBytes c).isPrefixOf? bytes).toList
  | .any, bytes =>
    match bytes with
    | [] => []
    | _ :: rest => [rest]
  | .run, bytes => suffixes bytes
  | .leadingFolders, bytes => bytes :: afterSlashes bytes
  | .trailingFolders, bytes =>
    match bytes with
    | [] => []
    | byte :: rest => if byte = slash then suffixes rest else []
  | .innerFolders, bytes =>
    match bytes with
    | [] => []
    | byte :: rest => if byte = slash then rest :: afterSlashes rest else []
  | .set negated ranges, bytes =>
    match bytes with
    | [] => []
    | byte :: rest => if ranges.any (inRange · byte) = negated then [] else [rest]
  | .alternatives branches, bytes =>
    if areVoid branches then [bytes] else branchRests branches bytes

/-- What can follow the bytes that a list of items describes, in any of the given places. -/
def rests : List Item → List (List UInt8) → List (List UInt8)
  | [], places => places
  | item :: items, places => rests items (places.flatMap item.rests).eraseDups

/-- What can follow the bytes that one of the branches describes. -/
def branchRests : List (List Item) → List UInt8 → List (List UInt8)
  | [], _ => []
  | branch :: branches, bytes =>
    (if isVoid branch then [] else rests branch [bytes]) ++ branchRests branches bytes

end

end Glob

/-- A description of texts by pieces. -/
structure Glob where
  items : List Glob.Item
  deriving Repr, Inhabited

namespace Glob

/-- The glob describes a text. A double star alone describes every text. -/
def accepts (glob : Glob) (text : Text) : Bool :=
  match glob.items with
  | [.leadingFolders] => true
  | items => (rests items [textBytes text]).contains []

/-- What is wrong with a glob: a set that is not closed, a range that ends before it starts, a group
of alternatives that is not closed or not opened, or nothing after a backslash. -/
inductive Problem where
  | unclosedSet
  | invalidRange (first last : Char)
  | unclosedGroup
  | unopenedGroup
  | danglingEscape
  deriving DecidableEq, Repr

/-- The wording of a problem. -/
def Problem.message : Problem → String
  | .unclosedSet => "unclosed character class; missing ']'"
  | .invalidRange first last => s!"invalid range; '{first}' > '{last}'"
  | .unclosedGroup =>
    "unclosed alternate group; missing '\x7d' (maybe escape '\x7b' with '[\x7b]'?)"
  | .unopenedGroup =>
    "unopened alternate group; missing '\x7b' (maybe escape '\x7d' with '[\x7d]'?)"
  | .danglingEscape => "dangling '\\'"

/-- A group of alternatives that is being read: the branches before the present one, and the present
one. -/
structure Group where
  branches : List (List Item)
  current : List Item
  deriving Repr, Inhabited

/-- A set that is being read: whether it stands for the bytes outside its ranges, the ranges, the
last one first, and whether a dash has been read that may continue the last of them. -/
structure SetDraft where
  negated : Bool
  ranges : List (Char × Char)
  dashed : Bool
  deriving Repr

/-- Where in a glob the next character stands: outside of sets, after a star or a double star that
follows `before`, after a backslash, at the start of a set, or in one. -/
inductive Mode where
  | plain
  | star (before : Option Char)
  | doubleStar (before : Option Char)
  | escaped
  | setStart
  | set (draft : SetDraft)
  deriving Repr

/-- A glob that is being read: the groups around the present one, the innermost first and the glob
as a whole last, the present group, where the next character stands, and the character before it. -/
structure Draft where
  outer : List Group
  group : Group
  mode : Mode
  previous : Option Char
  deriving Repr

/-- Continue the last range to a character. -/
def SetDraft.continueTo (draft : SetDraft) (c : Char) : Except Problem SetDraft :=
  match draft.ranges with
  | (first, _) :: more =>
    if first ≤ c then .ok { draft with ranges := (first, c) :: more, dashed := false }
    else .error (.invalidRange first c)
  | [] => .ok { draft with ranges := [(c, c)], dashed := false }

/-- A character of a set that does not close it: a dash between two characters makes a range of
them. -/
def SetDraft.read (draft : SetDraft) (c : Char) : Except Problem SetDraft :=
  if draft.dashed then draft.continueTo c
  else if c = '-' ∧ draft.ranges ≠ [] then .ok { draft with dashed := true }
  else .ok { draft with ranges := (c, c) :: draft.ranges }

/-- The finished set; a dash at its end stands for itself. -/
def SetDraft.item (draft : SetDraft) : Item :=
  .set draft.negated (draft.ranges.reverse ++ if draft.dashed then [('-', '-')] else [])

namespace Draft

/-- Nothing has been read. -/
def start : Draft := ⟨[], ⟨[], []⟩, .plain, none⟩

/-- The next character stands in a group of alternatives. -/
def isInside (draft : Draft) : Bool := !draft.outer.isEmpty

/-- The draft with another present branch. -/
def withCurrent (draft : Draft) (current : List Item) : Draft :=
  { draft with group := { draft.group with current := current } }

/-- The draft with an item added to the present branch. -/
def push (draft : Draft) (item : Item) : Draft :=
  draft.withCurrent (draft.group.current ++ [item])

/-- Open a group. -/
def openGroup (draft : Draft) : Draft :=
  { draft with outer := draft.group :: draft.outer, group := ⟨[], []⟩ }

/-- Close the present group. -/
def closeGroup (draft : Draft) : Except Problem Draft :=
  match draft.outer with
  | [] => .error .unopenedGroup
  | group :: outer =>
    let item := Item.alternatives (draft.group.branches ++ [draft.group.current])
    .ok ({ draft with outer := outer, group := group }.push item)

/-- A comma starts another branch of a group. -/
def comma (draft : Draft) : Draft :=
  if draft.isInside then
    { draft with group := ⟨draft.group.branches ++ [draft.group.current], []⟩ }
  else draft.push (.literal ',')

/-- Replace the slash before a double star. Where an item for whole folders stands in its place, the
double star adds nothing to it. -/
def replaceSlash (draft : Draft) (item : Item) : Draft :=
  let kept := match draft.group.current.getLast? with
    | some .leadingFolders => .leadingFolders
    | some .trailingFolders => .trailingFolders
    | _ => item
  draft.withCurrent (draft.group.current.dropLast ++ [kept])

/-- A double star between the characters `before` and `after`, and whether the latter belongs to
it. It stands for folders only between the ends of a branch and slashes. -/
def doubleStar (draft : Draft) (before after : Option Char) : Draft × Bool :=
  let twoRuns := ((draft.push .run).push .run, false)
  if draft.group.current.isEmpty then
    match after with
    | none => (draft.push .leadingFolders, false)
    | some c => if c = '/' then (draft.push .leadingFolders, true) else twoRuns
  else if before = some '/' ∨ draft.isInside ∧ (before = some ',' ∨ before = some '\x7b') then
    match after with
    | none => (draft.replaceSlash .trailingFolders, false)
    | some c =>
      if draft.isInside ∧ (c = ',' ∨ c = '\x7d') then (draft.replaceSlash .trailingFolders, false)
      else if c = '/' then (draft.replaceSlash .innerFolders, true)
      else twoRuns
  else twoRuns

/-- Read a character outside of sets that does not follow a star or a backslash. -/
def readPlain (draft : Draft) (c : Char) : Except Problem Draft :=
  match c with
  | '?' => .ok (draft.push .any)
  | '*' => .ok { draft with mode := .star draft.previous }
  | '[' => .ok { draft with mode := .setStart }
  | '\x7b' => .ok draft.openGroup
  | '\x7d' => draft.closeGroup
  | ',' => .ok draft.comma
  | '\\' => .ok { draft with mode := .escaped }
  | c => .ok (draft.push (.literal c))

/-- Read a character. -/
def read (draft : Draft) (c : Char) : Except Problem Draft :=
  let plain := { draft with mode := .plain }
  match draft.mode with
  | .plain => draft.readPlain c
  | .star before =>
    if c = '*' then .ok { draft with mode := .doubleStar before }
    else (plain.push .run).readPlain c
  | .doubleStar before =>
    let (next, taken) := plain.doubleStar before (some c)
    if taken then .ok next else next.readPlain c
  | .escaped => .ok (plain.push (.literal c))
  | .setStart =>
    if c = '!' ∨ c = '^' then .ok { draft with mode := .set ⟨true, [], false⟩ }
    else ((⟨false, [], false⟩ : SetDraft).read c).map fun set => { draft with mode := .set set }
  | .set set =>
    if c = ']' ∧ set.ranges ≠ [] then .ok (plain.push set.item)
    else (set.read c).map fun set => { draft with mode := .set set }

/-- Read a character and remember it. -/
def step (draft : Draft) (c : Char) : Except Problem Draft :=
  (draft.read c).map fun next => { next with previous := some c }

/-- The glob that ends here, unless a group is open. -/
def close (draft : Draft) : Except Problem Glob :=
  if draft.isInside then .error .unclosedGroup else .ok ⟨draft.group.current⟩

/-- The finished glob. -/
def finish (draft : Draft) : Except Problem Glob :=
  match draft.mode with
  | .plain => draft.close
  | .star _ => (draft.push .run).close
  | .doubleStar before => (draft.doubleStar before none).1.close
  | .escaped => .error .danglingEscape
  | .setStart | .set _ => .error .unclosedSet

end Draft

/-- The glob that a text spells. -/
def ofText? (text : Text) : Except Problem Glob :=
  match text.foldlM Draft.step Draft.start with
  | .error problem => .error problem
  | .ok draft => draft.finish

end Glob

end ClassHoist
