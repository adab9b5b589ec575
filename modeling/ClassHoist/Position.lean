import ClassHoist.Text.Basic

/-! # Lines and columns

A position is a line and a column in UTF-16 code units, both counted from zero. Only a line feed
ends a line. Positions are computed in two ways: by advancing over the characters of a text, and
by looking up the line that holds a byte offset in a table of lines.
-/

namespace ClassHoist

/-- A line and a column, counted from zero; columns count UTF-16 code units. -/
structure Position where
  line : Nat
  column : Nat
  deriving DecidableEq, Repr, Inhabited

namespace Position

/-- The position after a character that stands at this position. -/
def advance (position : Position) (c : Char) : Position :=
  if c = '\n' then ⟨position.line + 1, 0⟩
  else ⟨position.line, position.column + Text.charUnits c⟩

/-- The position after a text that starts at this position. -/
def advanceText (position : Position) (text : Text) : Position :=
  text.foldl advance position

/-- Positions in reading order: by line, then by column. -/
def le (first second : Position) : Bool :=
  first.line < second.line || (first.line == second.line && first.column ≤ second.column)

end Position

/-- A line of a text: the offset of its first byte, and its characters with the line feed that ends
it. -/
structure Line where
  start : Nat
  text : Text
  deriving DecidableEq, Repr, Inhabited

/-- The lines of a text in order; every text has at least one. -/
structure LineTable where
  lines : Array Line

namespace LineTable

/-- The lines of `text`, the first of which starts with `seen` (last character first) at
`start`. -/
def linesFrom (start : Nat) (seen : Text) : Text → List Line
  | [] => [⟨start, seen.reverse⟩]
  | c :: rest =>
    if c = '\n' then
      let line := (c :: seen).reverse
      ⟨start, line⟩ :: linesFrom (start + Text.bytes line) [] rest
    else linesFrom start (c :: seen) rest

/-- The table of the lines of a text. -/
def ofText (text : Text) : LineTable :=
  ⟨(linesFrom 0 [] text).toArray⟩

/-- The number of lines. -/
def lineCount (table : LineTable) : Nat := table.lines.size

/-- The offset at which a line starts. -/
def lineStart? (table : LineTable) (line : Nat) : Option Nat :=
  table.lines[line]?.map Line.start

/-- The number of lines among the first `count` up to the last that starts at or before
`offset`. -/
def countThrough (table : LineTable) (offset : Nat) : Nat → Nat
  | 0 => 0
  | count + 1 =>
    match table.lines[count]? with
    | some line => if line.start ≤ offset then count + 1 else countThrough table offset count
    | none => countThrough table offset count

/-- The position of a byte offset: the last line that starts at or before it, and the UTF-16
units from there. There is none past the end of the text or inside a character. -/
def position? (table : LineTable) (offset : Nat) : Option Position := do
  let number := countThrough table offset table.lines.size - 1
  let line ← table.lines[number]?
  let (before, _) ← Text.splitAt? (offset - line.start) line.text
  return ⟨number, Text.units before⟩

end LineTable

end ClassHoist
