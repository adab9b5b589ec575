import ClassHoist.Span
import ClassHoist.Text.Basic

/-! # Where output comes from

Output is produced front to back in pieces: text copied from the source, text that replaces a
span of it, and text that was not there before. Recording the pieces gives a table of mappings
from spans of the output to spans of the source.
-/

namespace ClassHoist.SourceMap

/-- A piece of output: text copied from the source, where it starts at `start`, text that stands for
the source text in `span`, or text that is not in the source. -/
inductive Piece where
  | copied (start : Nat) (text : Text)
  | replaced (span : Span) (text : Text)
  | inserted (text : Text)
  deriving DecidableEq, Repr

/-- The output text of a piece. -/
def Piece.text : Piece → Text
  | .copied _ text => text
  | .replaced _ text => text
  | .inserted text => text

/-- How a mapped span of output relates to its span of the source: the same bytes, one for one, or
other text, which belongs to the start of the source span. -/
inductive Relation where
  | copied
  | replaced
  deriving DecidableEq, Repr

/-- A span of output, the span of the source it comes from, and how the two are related. -/
structure Mapping where
  relation : Relation
  generated : Span
  source : Span
  deriving DecidableEq, Repr

/-- The mappings of an output, in output order. Inserted text has none. -/
structure Table where
  mappings : List Mapping
  deriving DecidableEq, Repr

namespace Table

/-- The source offset of the output byte at `generated`: the byte it was copied from, or the
start of what it replaces. -/
def source? (table : Table) (generated : Nat) : Option Nat := do
  let mapping ← table.mappings.find? (·.generated.contains generated)
  match mapping.relation with
  | .copied => return mapping.source.start + (generated - mapping.generated.start)
  | .replaced => return mapping.source.start

/-- The output offset of the first copy of the source byte at `source`. -/
def generated? (table : Table) (source : Nat) : Option Nat := do
  let mapping ← table.mappings.find? fun mapping =>
    mapping.relation == .copied && mapping.source.contains source
  return mapping.generated.start + (source - mapping.source.start)

end Table

/-- The mappings recorded so far and the length of the output so far. -/
structure Trace where
  mappings : List Mapping
  length : Nat
  deriving DecidableEq, Repr

namespace Trace

/-- Nothing recorded. -/
def start : Trace := ⟨[], 0⟩

/-- The mapping of a piece whose output starts at `offset`; empty and inserted text has none. -/
def mapping? (offset : Nat) : Piece → Option Mapping
  | .copied start text =>
    if text.isEmpty then none
    else some ⟨.copied, ⟨offset, offset + text.bytes⟩, ⟨start, start + text.bytes⟩⟩
  | .replaced span text =>
    if text.isEmpty then none else some ⟨.replaced, ⟨offset, offset + text.bytes⟩, span⟩
  | .inserted _ => none

/-- Record the next piece of output. -/
def record (trace : Trace) (piece : Piece) : Trace where
  mappings := trace.mappings ++ (mapping? trace.length piece).toList
  length := trace.length + piece.text.bytes

/-- The table of everything recorded. -/
def table (trace : Trace) : Table := ⟨trace.mappings⟩

end Trace

/-- The mappings of the pieces that make up an output from `offset` on. -/
def mappingsFrom (offset : Nat) : List Piece → List Mapping
  | [] => []
  | piece :: rest =>
    (Trace.mapping? offset piece).toList ++ mappingsFrom (offset + piece.text.bytes) rest

/-- The table of an output given by its pieces. -/
def Table.ofPieces (pieces : List Piece) : Table := ⟨mappingsFrom 0 pieces⟩

/-- Recording piece by piece gives the mappings of the whole. -/
theorem foldl_record (trace : Trace) (pieces : List Piece) :
    (pieces.foldl Trace.record trace).mappings
      = trace.mappings ++ mappingsFrom trace.length pieces := by
  induction pieces generalizing trace with
  | nil => simp [mappingsFrom]
  | cons piece rest ih => simp [ih, mappingsFrom, Trace.record]

/-- The table of an output is what recording its pieces from the start leaves. -/
theorem table_foldl_record (pieces : List Piece) :
    (pieces.foldl Trace.record Trace.start).table = Table.ofPieces pieces := by
  simp [Trace.table, Table.ofPieces, foldl_record, Trace.start]

end ClassHoist.SourceMap
