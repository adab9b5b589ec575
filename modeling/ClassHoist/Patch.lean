import ClassHoist.SourceMap.Table

/-! # Edits on a fixed source

A patch collects edits on a source that itself never changes: overwritten ranges, insertions
between characters, and text appended at the end. Every offset counts bytes of the source. A
request to edit answers whether it was carried out and leaves a patch; one that would conflict with
an edit already there is refused before anything is changed.
-/

namespace ClassHoist

open SourceMap

/-- Why an edit was refused: its range is reversed or ends past the end of the source, an offset
lies inside a character, the range to overwrite is empty or shares a byte with a range already
overwritten, or an insertion would fall strictly inside an overwritten range. -/
inductive EditError where
  | outOfBounds (start stop length : Nat)
  | notCharBoundary (offset : Nat)
  | emptyRange (offset : Nat)
  | overlap (start stop otherStart otherStop : Nat)
  | insideOverwrite (offset start stop : Nat)
  deriving DecidableEq, Repr

namespace EditError

/-- The wording of a refusal. -/
def message : EditError → String
  | outOfBounds start stop length =>
    s!"range {start}..{stop} is out of bounds for a source of {length} bytes"
  | notCharBoundary offset => s!"offset {offset} is not on a character boundary"
  | emptyRange offset => s!"cannot overwrite the empty range at {offset}"
  | overlap start stop otherStart otherStop =>
    s!"overwrite {start}..{stop} overlaps an existing overwrite {otherStart}..{otherStop}"
  | insideOverwrite offset start stop =>
    s!"cannot insert at {offset}: it is inside the overwritten range {start}..{stop}"

end EditError

/-- A nonempty range of the source, up to `stop` exclusively, and the text that takes its place. -/
structure Overwrite where
  start : Nat
  stop : Nat
  text : Text
  deriving DecidableEq, Repr

/-- Text inserted before the source character at an offset. -/
structure Insertion where
  offset : Nat
  text : Text
  deriving DecidableEq, Repr

/-- Edits on a source: the overwritten ranges, ordered by their starts, the insertions, ordered by
offset, one for each offset, and the text after the end of the source. -/
structure Patch where
  source : Text
  overwrites : List Overwrite
  insertions : List Insertion
  appended : Text
  deriving DecidableEq, Repr

namespace Patch

/-- No edit of a source. -/
def ofSource (source : Text) : Patch := ⟨source, [], [], []⟩

/-- No edit has been made. An edit that writes the text already there counts as one. -/
def isUnchanged (patch : Patch) : Bool :=
  patch.overwrites.isEmpty && patch.insertions.isEmpty && patch.appended.isEmpty

/-- Refuse a range that is not between two boundaries of the source. -/
def checkRange (patch : Patch) (start stop : Nat) : Except EditError Unit :=
  let length := patch.source.bytes
  if start > stop || stop > length then .error (.outOfBounds start stop length)
  else if !Text.isBoundary patch.source start then .error (.notCharBoundary start)
  else if !Text.isBoundary patch.source stop then .error (.notCharBoundary stop)
  else .ok ()

/-- The last overwritten range that starts before `offset`. -/
def lastBefore? (patch : Patch) (offset : Nat) : Option Overwrite :=
  (patch.overwrites.takeWhile (·.start < offset)).getLast?

/-- Put an overwrite among others ordered by their starts. -/
def insertOverwrite (new : Overwrite) : List Overwrite → List Overwrite
  | [] => [new]
  | old :: rest =>
    if new.start < old.start then new :: old :: rest else old :: insertOverwrite new rest

/-- Put an insertion among others ordered by offset, after what is already inserted there. -/
def insertInsertion (new : Insertion) : List Insertion → List Insertion
  | [] => [new]
  | old :: rest =>
    if new.offset < old.offset then new :: old :: rest
    else if new.offset = old.offset then ⟨old.offset, old.text ++ new.text⟩ :: rest
    else old :: insertInsertion new rest

/-- Run a request to change a patch: what it answers, and the patch that it leaves. -/
def perform (patch : Patch) (request : ExceptT EditError (StateM Patch) Unit) :
    Except EditError Unit × Patch :=
  request.run.run patch

/-- What a request leaves unless it was refused; a refusal keeps its reason only. -/
def unlessRefused : Except EditError Unit × Patch → Except EditError Patch
  | (.ok (), patch) => .ok patch
  | (.error refusal, _) => .error refusal

instance : Coe (Except EditError Unit × Patch) (Except EditError Patch) := ⟨unlessRefused⟩

/-- Replace a nonempty range of the source. Refused if it shares a byte with a range already
overwritten or has an insertion strictly inside it. -/
def overwrite (patch : Patch) (start stop : Nat) (text : Text) : Except EditError Unit × Patch :=
  patch.perform do
    patch.checkRange start stop
    if start = stop then throw (.emptyRange start)
    if let some other := patch.lastBefore? stop then
      if start < other.stop then throw (.overlap start stop other.start other.stop)
    if let some inner := patch.insertions.find? fun i => start < i.offset && i.offset < stop then
      throw (.insideOverwrite inner.offset start stop)
    modify fun patch =>
      { patch with overwrites := insertOverwrite ⟨start, stop, text⟩ patch.overwrites }

/-- Insert text before the source character at `offset`, after anything already inserted there.
Refused strictly inside an overwritten range. -/
def insert (patch : Patch) (offset : Nat) (text : Text) : Except EditError Unit × Patch :=
  patch.perform do
    patch.checkRange offset offset
    if let some other := patch.lastBefore? offset then
      if offset < other.stop then throw (.insideOverwrite offset other.start other.stop)
    modify fun patch =>
      { patch with insertions := insertInsertion ⟨offset, text⟩ patch.insertions }

/-- Add text after the end of the source. -/
def append (patch : Patch) (text : Text) : Patch :=
  { patch with appended := patch.appended ++ text }

/-- The source from `start` to `stop`, broken by the insertions between them. -/
def copiedPieces (source : Text) (start stop : Nat) : List Insertion → List Piece
  | [] => [.copied start (source.slice start stop)]
  | insertion :: rest =>
    .copied start (source.slice start insertion.offset) :: .inserted insertion.text ::
      copiedPieces source insertion.offset stop rest

/-- The source from `start` to `stop` with the insertions at either end or in between. -/
def copied (patch : Patch) (start stop : Nat) : List Piece :=
  copiedPieces patch.source start stop
    (patch.insertions.filter fun i => start ≤ i.offset && i.offset ≤ stop)

/-- The pieces from `cursor` on, given the overwritten ranges that follow. -/
def piecesFrom (patch : Patch) (cursor : Nat) : List Overwrite → List Piece
  | [] => patch.copied cursor patch.source.bytes
  | overwrite :: rest =>
    patch.copied cursor overwrite.start ++
      .replaced ⟨overwrite.start, overwrite.stop⟩ overwrite.text ::
        piecesFrom patch overwrite.stop rest

/-- The pieces of the edited text, front to back. -/
def pieces (patch : Patch) : List Piece :=
  patch.piecesFrom 0 patch.overwrites ++ [.inserted patch.appended]

/-- The edited text. -/
def output (patch : Patch) : Text :=
  patch.pieces.flatMap Piece.text

/-- Where each byte of the edited text comes from. -/
def table (patch : Patch) : Table :=
  Table.ofPieces patch.pieces

end Patch

end ClassHoist
