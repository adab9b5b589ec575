import ClassHoist.Json.Basic
import ClassHoist.Position
import ClassHoist.SourceMap.Table
import ClassHoist.SourceMap.Vlq

/-! # Source maps of version 3

A table of byte spans becomes a list of segments, each of which relates a position in the output
to a position in the source. Segments are written as differences in base 64, and a position is
looked up at the closest segment before it on its line.
-/

namespace ClassHoist.SourceMap

/-- From the generated position of the output on, the text comes from this position of the source.
-/
structure Segment where
  generated : Position
  source : Position
  deriving DecidableEq, Repr, Inhabited

/-- What to write, and how finely: the name of the source and of the file mapped, whether there is a
segment for every copied character and not only for the first of a stretch of a line, and whether
the source text is kept. -/
structure EncodingOptions where
  file : Option String
  everyCharacter : Bool
  keepContent : Bool
  deriving DecidableEq, Repr

/-- A source map: the name of the source and of the file mapped, the source text if kept, and the
segments in output order. -/
structure Encoding where
  file : Option String
  content : Option Text
  segments : List Segment
  deriving DecidableEq, Repr

/-- The segments of a copied text that starts at the given positions of output and source. Line
feeds have none. Unless every character has one, only the first character of the text and of each
line in it does; `first` says whether the next character is such a one. -/
def copiedSegments (everyCharacter : Bool) (first : Bool) (generated source : Position) :
    Text → List Segment
  | [] => []
  | c :: rest =>
    let more :=
      copiedSegments everyCharacter (c == '\n') (generated.advance c) (source.advance c) rest
    if c ≠ '\n' ∧ (everyCharacter ∨ first) then ⟨generated, source⟩ :: more else more

/-- The number of lines that a replacement starts after its first; a line feed at its very end
starts none of its own. -/
def laterLines (text : Text) : Nat :=
  let feeds := text.count '\n'
  if text.getLast? = some '\n' then feeds - 1 else feeds

/-- The segments of a replacement: one where it starts and one at the start of each later line,
all for the start of what it replaces. -/
def replacedSegments (generated source : Position) (text : Text) : List Segment :=
  ⟨generated, source⟩ ::
    (List.range (laterLines text)).map fun number => ⟨⟨generated.line + 1 + number, 0⟩, source⟩

/-- The segments of one mapping between two texts. A mapping that does not start at boundaries of
both has none. -/
def Mapping.segments (mapping : Mapping) (everyCharacter : Bool) (source generated : Text)
    (sourceLines generatedLines : LineTable) : List Segment :=
  match generatedLines.position? mapping.generated.start,
      sourceLines.position? mapping.source.start with
  | some target, some origin =>
    match mapping.relation with
    | .copied =>
      copiedSegments everyCharacter true target origin
        (source.slice mapping.source.start mapping.source.stop)
    | .replaced =>
      replacedSegments target origin
        (generated.slice mapping.generated.start mapping.generated.stop)
  | _, _ => []

/-- The source map of a table between the two texts it was made for. -/
def Table.encode (table : Table) (source generated : Text) (options : EncodingOptions) :
    Encoding where
  file := options.file
  content := if options.keepContent then some source else none
  segments :=
    let sourceLines := LineTable.ofText source
    let generatedLines := LineTable.ofText generated
    table.mappings.flatMap fun mapping =>
      mapping.segments options.everyCharacter source generated sourceLines generatedLines

namespace Encoding

/-- The names of the sources; a map always has exactly one, empty if there is no file name. -/
def sources (encoding : Encoding) : List String := [encoding.file.getD ""]

/-- The source position of an output position: that of the last segment at or before it in
reading order, if it is on the same line. Of several segments at exactly the position, the first
counts. -/
def lookup? (encoding : Encoding) (position : Position) : Option Position := do
  let ordered := encoding.segments.mergeSort fun a b => a.generated.le b.generated
  let closest ←
    (ordered.find? (·.generated == position)).or
      (ordered.takeWhile (·.generated.le position)).getLast?
  guard (closest.generated.line == position.line)
  return closest.source

/-- The difference between two counts. -/
def delta (before now : Nat) : Int := (now : Int) - (before : Int)

/-- The four numbers of a segment: its output column relative to `column`, its source (always the
same one), and its source line and column relative to the previous segment's. -/
def fields (column : Nat) (previous : Position) (segment : Segment) : List Char :=
  Vlq.encode (delta column segment.generated.column) ++ Vlq.encode 0
    ++ Vlq.encode (delta previous.line segment.source.line)
    ++ Vlq.encode (delta previous.column segment.source.column)

/-- The written segments that follow `previous`: a semicolon for every line feed of the output,
where the output column starts again from zero, and a comma within a line. A segment that repeats
the one before is left out. -/
def mappingsAfter (previous : Segment) : List Segment → List Char
  | [] => []
  | segment :: rest =>
    let line := previous.generated.line
    let written :=
      if segment.generated.line ≠ line then
        List.replicate (segment.generated.line - line) ';' ++ fields 0 previous.source segment
      else if segment = previous then []
      else ',' :: fields previous.generated.column previous.source segment
    written ++ mappingsAfter segment rest

/-- The written segments. -/
def mappingsText (encoding : Encoding) : String :=
  match encoding.segments with
  | [] => ""
  | segment :: rest =>
    String.ofList <|
      List.replicate segment.generated.line ';' ++ fields 0 ⟨0, 0⟩ segment
        ++ mappingsAfter segment rest

/-- The map as an object. -/
def toJson (encoding : Encoding) : Json :=
  let file := encoding.file.toList.map fun name => ("file", Json.string name)
  let content := encoding.content.toList.map fun text =>
    ("sourcesContent", Json.array [.string (String.ofList text)])
  .object <|
    [("version", .number 3)] ++ file
      ++ [("sources", .array (encoding.sources.map .string))] ++ content
      ++ [("names", .array []), ("mappings", .string encoding.mappingsText)]

/-- The map as text. -/
def text (encoding : Encoding) : String := encoding.toJson.compact

end Encoding

end ClassHoist.SourceMap
