import ClassHoist.Proofs.Bytewise
import ClassHoist.Proofs.Lookups
import Mathlib.Algebra.GroupWithZero.Nat

/-! # How many segments a map has

The segments of an edited text stand in strictly increasing order of its positions. No two share a
position, so none repeats the one before it and every one is written. If every character has its
own, there is one for each character of the source that is not overwritten, line feeds apart, and
one for each line of a replacement (`Patch.segments_ofEdits`).

They are counted among the characters of the output (`length_segmentsFrom`): the copied ones are
found going through the source byte by byte (`Patch.Sound.filterMap_kept?`), those that start a
line of a replacement going through the pieces (`Patch.countP_pieces`). That all are written is
read off the text of the map (`Encoding.length_written`).
-/

namespace ClassHoist

open SourceMap

namespace SourceMap

/-- Where a copied character other than a line feed stands in the source. -/
def Cell.kept? (cell : Cell) : Option Nat :=
  match cell.origin with
  | .copied offset => if cell.char = '\n' then none else some offset
  | _ => none

/-- The character starts a replacement or a later line of one. -/
def Cell.startsLine (cell : Cell) : Bool :=
  match cell.origin with
  | .replaced _ marked => marked
  | _ => false

section Counting

variable {source : Text}

/-- A character has a segment if it is copied and no line feed, or if it starts a line of a
replacement. -/
theorem Cell.length_segments {cell : Cell} (fits : cell.FitsIn source) (target : Position) :
    (cell.segments source target).length =
      cell.kept?.toList.length + if cell.startsLine then 1 else 0 := by
  obtain ⟨c, origin⟩ := cell
  cases origin with
  | copied offset =>
    obtain ⟨before, after, whole, startIs, -⟩ := fits
    have place := LineTable.position?_ofText before ([c] ++ after)
    rw [← whole, startIs] at place
    by_cases feed : c = '\n'
    · simp only [segments, kept?, startsLine, feed, ↓reduceIte]
      rfl
    · simp only [segments, kept?, startsLine, feed, ↓reduceIte, place]
      rfl
  | replaced start marked =>
    obtain ⟨before, after, whole, startIs⟩ := Text.isBoundary_iff.mp fits
    have place := LineTable.position?_ofText before after
    rw [← whole, startIs] at place
    cases marked with
    | true =>
      simp only [segments, kept?, startsLine, place]
      rfl
    | false => rfl
  | inserted => rfl

/-- The characters that have a segment are the copied ones other than line feeds, and those that
start a line of a replacement. -/
theorem length_segmentsFrom {cells : List Cell} (fits : ∀ cell ∈ cells, cell.FitsIn source)
    (target : Position) :
    (segmentsFrom source target cells).length =
      (cells.filterMap Cell.kept?).length + cells.countP Cell.startsLine := by
  induction cells generalizing target with
  | nil => rfl
  | cons cell rest ih =>
    have here := Cell.length_segments (fits cell List.mem_cons_self) target
    have later := ih (fun other member => fits other (List.mem_cons_of_mem _ member))
      (target.advance cell.char)
    have front : ((cell :: rest).filterMap Cell.kept?).length =
        cell.kept?.toList.length + (rest.filterMap Cell.kept?).length := by
      rw [List.filterMap_eq_flatMap_toList, List.filterMap_eq_flatMap_toList, List.flatMap_cons,
        List.length_append]
    rw [segmentsFrom, List.length_append, here, later, front, List.countP_cons]
    omega

/-- In a replacement one character starts each later line, and a marked first one starts it. -/
theorem countP_replacedCells (start : Nat) (marked : Bool) (text : Text) :
    (replacedCells start marked text).countP Cell.startsLine =
      laterLines text + if marked = true ∧ text ≠ [] then 1 else 0 := by
  induction text generalizing marked with
  | nil => simp [replacedCells, laterLines]
  | cons c rest ih =>
    have here : Cell.startsLine ⟨c, .replaced start marked⟩ = marked := rfl
    rw [replacedCells, List.countP_cons, ih, here]
    by_cases feed : c = '\n'
    · subst feed
      by_cases last : rest = []
      · subst last
        cases marked <;> rfl
      · rw [laterLines_feed last]
        simp [last]
    · rw [laterLines_cons rest feed]
      simp [feed]

end Counting

/-- The character stands between written segments. -/
def isBreak (c : Char) : Bool := c == ',' || c == ';'

/-- The parts of a text between such characters, the empty ones left out. -/
def parts (text : Text) : List Text := (text.splitOnP isBreak).filter (!·.isEmpty)

/-- The segments as they are written. -/
def Encoding.written (encoding : Encoding) : List Text := parts encoding.mappingsText.toList

section Written

/-- A separator at the start makes no part. -/
theorem parts_cons {c : Char} (breaks : isBreak c = true) (rest : Text) :
    parts (c :: rest) = parts rest := by
  rw [parts, List.splitOnP_cons_eq_if_modifyHead, if_pos breaks]
  rfl

/-- Separators at the start make no part. -/
theorem parts_append_of_breaks {breaks : Text} (all : ∀ c ∈ breaks, isBreak c = true)
    (rest : Text) : parts (breaks ++ rest) = parts rest := by
  induction breaks with
  | nil => rfl
  | cons c more ih =>
    obtain ⟨here, later⟩ := List.forall_mem_cons.mp all
    rw [List.cons_append, parts_cons here, ih later]

/-- Among separators there are only separators. -/
theorem isBreak_of_mem_replicate {count : Nat} {c : Char}
    (member : c ∈ List.replicate count ';') : isBreak c = true := by
  rw [List.eq_of_mem_replicate member]
  rfl

/-- A part ends where the text does or where something stands between it and the next. -/
theorem parts_append_of_field {field rest : Text} (nonempty : field ≠ [])
    (none : ∀ c ∈ field, isBreak c = false) (ends : ∀ c, rest.head? = some c → isBreak c = true) :
    parts (field ++ rest) = field :: parts rest := by
  have stays : (!field.isEmpty) = true := by
    rw [List.isEmpty_eq_false_iff.mpr nonempty]
    rfl
  cases rest with
  | nil =>
    rw [List.append_nil, parts, List.splitOnP_eq_singleton none, List.filter_cons, if_pos stays]
    rfl
  | cons c more =>
    rw [parts_cons (ends c rfl), parts, List.splitOnP_append_cons_of_forall_mem none c (ends c rfl),
      List.filter_cons, if_pos stays, parts]

/-- A digit is no separator. -/
theorem isBreak_digit (n : Nat) : isBreak (Vlq.digit n) = false := by
  by_cases small : n < 63
  · have each : ∀ n < 63, isBreak (Vlq.digit n) = false := by decide
    exact each n small
  · have last : Vlq.digit n = '/' := by
      rw [Vlq.digit, if_neg (by omega), if_neg (by omega), if_neg (by omega), if_neg (by omega)]
    rw [last]
    rfl

/-- No digit of a number is a separator. -/
theorem isBreak_of_mem_digits {n : Nat} {c : Char} (member : c ∈ Vlq.digits n) :
    isBreak c = false := by
  induction n using Nat.strongRecOn with
  | ind n ih =>
    rw [Vlq.digits] at member
    split at member
    · rw [List.mem_singleton.mp member]
      exact isBreak_digit n
    · rcases List.mem_cons.mp member with rfl | later
      · exact isBreak_digit _
      · exact ih (n / 32) (by omega) later

/-- A number has at least one digit. -/
theorem digits_ne_nil (n : Nat) : Vlq.digits n ≠ [] := by
  rw [Vlq.digits]
  split <;> exact List.cons_ne_nil _ _

namespace Encoding

variable {column : Nat} {previous : Position} {segment : Segment}

/-- A segment is not written as nothing. -/
theorem fields_ne_nil : fields column previous segment ≠ [] := by
  rw [fields, List.append_assoc, List.append_assoc]
  exact List.append_ne_nil_of_left_ne_nil (digits_ne_nil _) _

/-- A written segment holds no separator. -/
theorem isBreak_of_mem_fields {c : Char} (member : c ∈ fields column previous segment) :
    isBreak c = false := by
  simp only [fields, List.mem_append] at member
  rcases member with ((inColumn | inSource) | inLine) | inSourceColumn
  · exact isBreak_of_mem_digits inColumn
  · exact isBreak_of_mem_digits inSource
  · exact isBreak_of_mem_digits inLine
  · exact isBreak_of_mem_digits inSourceColumn

/-- A segment that stands after another is written behind a comma or semicolons. -/
theorem mappingsAfter_cons {previous segment : Segment}
    (ordered : previous.generated.Before segment.generated) (rest : List Segment) :
    ∃ c breaks column, (∀ d ∈ c :: breaks, isBreak d = true) ∧
      mappingsAfter previous (segment :: rest) =
        (c :: breaks) ++ (fields column previous.source segment ++ mappingsAfter segment rest) := by
  by_cases line : segment.generated.line = previous.generated.line
  · have differs : segment ≠ previous := fun same => ordered.ne (by rw [same])
    refine ⟨',', [], previous.generated.column, by simp [isBreak], ?_⟩
    simp only [mappingsAfter, line, differs, ne_eq, not_true_eq_false, ↓reduceIte]
    rfl
  · have later : previous.generated.line < segment.generated.line := by
      unfold Position.Before at ordered
      omega
    obtain ⟨more, difference⟩ := Nat.exists_eq_add_of_lt later
    refine ⟨';', List.replicate more ';', 0, ?_, ?_⟩
    · rw [← List.replicate_succ]
      exact fun _ member => isBreak_of_mem_replicate member
    · have count : segment.generated.line - previous.generated.line = more + 1 := by omega
      simp only [mappingsAfter, line, ne_eq, not_false_eq_true, ↓reduceIte, count,
        List.append_assoc]
      rfl

/-- What follows a written segment starts behind it. -/
theorem isBreak_head?_mappingsAfter {previous : Segment} {segments : List Segment}
    (ordered : (previous :: segments).Pairwise
      fun first second => first.generated.Before second.generated) :
    ∀ c, (mappingsAfter previous segments).head? = some c → isBreak c = true := by
  intro c first
  cases segments with
  | nil => cases first
  | cons segment rest =>
    obtain ⟨d, breaks, column, all, written⟩ := mappingsAfter_cons
      ((List.pairwise_cons.mp ordered).1 segment List.mem_cons_self) rest
    rw [written] at first
    obtain rfl := Option.some.inj first
    exact all d List.mem_cons_self

/-- A written segment is a part of its own. -/
theorem parts_fields_append {segments : List Segment}
    (ordered : (segment :: segments).Pairwise
      fun first second => first.generated.Before second.generated) :
    parts (fields column previous segment ++ mappingsAfter segment segments) =
      fields column previous segment :: parts (mappingsAfter segment segments) :=
  parts_append_of_field fields_ne_nil (fun _ member => isBreak_of_mem_fields member)
    (isBreak_head?_mappingsAfter ordered)

/-- Of segments in order, each one is written as one part. -/
theorem length_parts_mappingsAfter {previous : Segment} {segments : List Segment}
    (ordered : (previous :: segments).Pairwise
      fun first second => first.generated.Before second.generated) :
    (parts (mappingsAfter previous segments)).length = segments.length := by
  induction segments generalizing previous with
  | nil => rfl
  | cons segment rest ih =>
    obtain ⟨behind, later⟩ := List.pairwise_cons.mp ordered
    obtain ⟨d, breaks, column, all, written⟩ :=
      mappingsAfter_cons (behind segment List.mem_cons_self) rest
    rw [written, parts_append_of_breaks all, parts_fields_append later, List.length_cons,
      List.length_cons, ih later]

/-- **Nothing is left out.** Segments in strictly increasing order are all written. -/
theorem length_written {encoding : Encoding}
    (ordered : encoding.segments.Pairwise
      fun first second => first.generated.Before second.generated) :
    encoding.written.length = encoding.segments.length := by
  unfold written mappingsText
  cases segments : encoding.segments with
  | nil => rfl
  | cons segment rest =>
    rw [segments] at ordered
    rw [String.toList_ofList, List.append_assoc,
      parts_append_of_breaks fun _ member => isBreak_of_mem_replicate member,
      parts_fields_append ordered, List.length_cons, List.length_cons,
      length_parts_mappingsAfter ordered]

end Encoding

end Written

end SourceMap

/-- The segments of a replacement: one where it starts and one for each later line; none if it is
empty. -/
def Overwrite.segmentCount (edit : Overwrite) : Nat :=
  if edit.text.isEmpty then 0 else laterLines edit.text + 1

namespace Patch

variable {patch : Patch}

/-- A character other than a line feed starts at the offset, and it is not overwritten. -/
def keeps (patch : Patch) (offset : Nat) : Bool :=
  (patch.source.charAt? offset).any (· ≠ '\n') &&
    !patch.overwrites.any fun edit => edit.start ≤ offset && offset < edit.stop

section Kept

variable {before after : Text} {c : Char}

/-- Inside a character no further one is kept. -/
theorem not_keeps_inside (whole : patch.source = before ++ c :: after) {place : Nat}
    (behind : Text.bytes before < place) (upTo : place < Text.bytes before + c.utf8Size) :
    patch.keeps place = false := by
  have noneThere : patch.source.charAt? place = none := by
    refine Option.eq_none_iff_forall_not_mem.mpr fun d there => ?_
    obtain ⟨longer, rest, split, placeIs⟩ := Text.charAt?_eq_some_iff.mp there
    have boundary := Text.isBoundary_iff.mpr ⟨longer, d :: rest, split, placeIs⟩
    have apart := le_of_isBoundary whole boundary behind
    omega
  rw [keeps, noneThere]
  rfl

/-- Inserted text keeps no character of the source. -/
theorem filterMap_kept?_insertedCells (text : Text) :
    (insertedCells text).filterMap Cell.kept? = [] := by
  refine List.filterMap_eq_nil_iff.mpr fun cell member => ?_
  obtain ⟨c, -, rfl⟩ := List.mem_map.mp member
  rfl

/-- A replacement keeps no character of the source. -/
theorem filterMap_kept?_replacedCells (start : Nat) (marked : Bool) (text : Text) :
    (replacedCells start marked text).filterMap Cell.kept? = [] := by
  induction text generalizing marked with
  | nil => rfl
  | cons c rest ih =>
    rw [replacedCells, List.filterMap_cons_none rfl, ih]

/-- What is written for a character keeps it, or nothing. -/
theorem filterMap_kept?_writtenCells (whole : patch.source = before ++ c :: after) :
    (writtenCells patch.overwrites (Text.bytes before) c).filterMap Cell.kept? =
      if patch.keeps (Text.bytes before) then [Text.bytes before] else [] := by
  have isThere : patch.source.charAt? (Text.bytes before) = some c := by
    rw [whole, Text.charAt?_append]
  unfold writtenCells keeps
  rw [isThere]
  cases around : patch.overwrites.find? fun edit =>
      edit.start ≤ Text.bytes before && Text.bytes before < edit.stop with
  | some edit =>
    have isIn : (patch.overwrites.any fun edit =>
        edit.start ≤ Text.bytes before && Text.bytes before < edit.stop) = true :=
      List.any_eq_true.mpr ⟨edit, List.mem_of_find?_eq_some around, by
        simpa only using List.find?_some around⟩
    rw [isIn, Bool.not_true, Bool.and_false, if_neg Bool.false_ne_true]
    simp only
    split
    · exact filterMap_kept?_replacedCells _ _ _
    · rfl
  | none =>
    have isOut : (patch.overwrites.any fun edit =>
        edit.start ≤ Text.bytes before && Text.bytes before < edit.stop) = false :=
      List.any_eq_false.mpr (List.find?_eq_none.mp around)
    rw [isOut]
    by_cases feed : c = '\n'
    · simp [feed, Cell.kept?]
    · simp [feed, Cell.kept?]

/-- **Kept characters.** Those copied, line feeds apart, are the ones that are not overwritten, in
the order of the source. -/
theorem Sound.filterMap_kept? (sound : patch.Sound) :
    (patch.pieces.flatMap Piece.cells).filterMap Cell.kept? =
      (List.range (Text.bytes patch.source)).filter patch.keeps := by
  have through : (splicedCells patch.overwrites patch.insertions 0 patch.source).filterMap
      Cell.kept? = (List.range' 0 (Text.bytes patch.source)).filter patch.keeps := by
    rw [List.filterMap_eq_flatMap_toList, ← List.filterMap_eq_filter,
      List.filterMap_eq_flatMap_toList]
    refine flatMap_spliced fun before c after whole => ?_
    rw [Nat.zero_add, ← List.filterMap_eq_flatMap_toList, ← List.filterMap_eq_flatMap_toList,
      ← List.filterMap_eq_flatMap_toList, List.filterMap_eq_filter, insertedCellsAt,
      filterMap_kept?_insertedCells, List.nil_append, filterMap_kept?_writtenCells whole]
    -- Only the first byte of a character starts one.
    obtain ⟨more, size⟩ := Nat.exists_eq_add_one.mpr c.utf8Size_pos
    have behind : (List.range' (Text.bytes before + 1) more).filter patch.keeps = [] := by
      refine List.filter_eq_nil_iff.mpr fun place member => ?_
      obtain ⟨from_, upTo⟩ := List.mem_range'_1.mp member
      rw [not_keeps_inside whole (by omega) (by omega)]
      exact Bool.false_ne_true
    rw [size, List.range'_succ, List.filter_cons, behind]
  rw [sound.cells_pieces, List.filterMap_append, List.filterMap_append, through, insertedCellsAt,
    filterMap_kept?_insertedCells, filterMap_kept?_insertedCells, List.append_nil,
    List.append_nil, List.range_eq_range']

end Kept

section Replaced

/-- Inserted text starts no line of a replacement. -/
theorem countP_insertedCells (text : Text) : (insertedCells text).countP Cell.startsLine = 0 := by
  refine List.countP_eq_zero.mpr fun cell member => ?_
  obtain ⟨c, -, rfl⟩ := List.mem_map.mp member
  exact Bool.false_ne_true

/-- Copied text starts no line of a replacement. -/
theorem countP_copiedCells (start : Nat) (text : Text) :
    (copiedCells start text).countP Cell.startsLine = 0 := by
  induction text generalizing start with
  | nil => rfl
  | cons c rest ih => rw [copiedCells, List.countP_cons_of_neg Bool.false_ne_true, ih]

/-- Copied pieces start no line of a replacement. -/
theorem countP_copiedPieces (source : Text) (start stop : Nat) (entries : List Insertion) :
    ((copiedPieces source start stop entries).flatMap Piece.cells).countP Cell.startsLine = 0 := by
  induction entries generalizing start with
  | nil =>
    rw [copiedPieces, List.flatMap_singleton]
    exact countP_copiedCells _ _
  | cons entry rest ih =>
    rw [copiedPieces, List.flatMap_cons, List.flatMap_cons, List.countP_append,
      List.countP_append, ih]
    simp only [Piece.cells, countP_copiedCells, countP_insertedCells]

/-- **Lines of replacements.** The characters that start one are counted by the ranges. -/
theorem countP_pieces (patch : Patch) :
    (patch.pieces.flatMap Piece.cells).countP Cell.startsLine =
      (patch.overwrites.map Overwrite.segmentCount).sum := by
  have following (cursor : Nat) (edits : List Overwrite) :
      ((patch.piecesFrom cursor edits).flatMap Piece.cells).countP Cell.startsLine =
        (edits.map Overwrite.segmentCount).sum := by
    induction edits generalizing cursor with
    | nil => exact countP_copiedPieces _ _ _ _
    | cons edit rest ih =>
      have replaced : (replacedCells edit.start true edit.text).countP Cell.startsLine =
          edit.segmentCount := by
        rw [countP_replacedCells, Overwrite.segmentCount]
        cases text : edit.text <;> simp [laterLines]
      rw [piecesFrom, List.flatMap_append, List.flatMap_cons, List.countP_append,
        List.countP_append, ih, copied, countP_copiedPieces, Nat.zero_add, Piece.cells, replaced,
        List.map_cons, List.sum_cons]
  rw [pieces, List.flatMap_append, List.countP_append, following, List.flatMap_singleton,
    Piece.cells, countP_insertedCells, Nat.add_zero]

end Replaced

/-- **Segments of an edited text.** Their positions in the output increase strictly, so no two share
one, and every segment is written. If every character has its own, there is one for each character
that is neither overwritten nor a line feed, and for each replacement that is not empty one and one
more for each line it starts. -/
theorem segments_ofEdits (source : Text) (asked : List Edit) (file : Option String) (keep : Bool) :
    let patch := ofEdits source asked
    let map (everyCharacter : Bool) : Encoding :=
      patch.table.encode source patch.output ⟨file, everyCharacter, keep⟩
    (∀ everyCharacter,
      ((map everyCharacter).segments.Pairwise
        fun first second => first.generated.Before second.generated) ∧
      ((map everyCharacter).segments.map Segment.generated).Nodup ∧
      (map everyCharacter).written.length = (map everyCharacter).segments.length) ∧
    (map true).segments.length =
      (List.range (Text.bytes source)).countP patch.keeps +
        (patch.overwrites.map Overwrite.segmentCount).sum := by
  intro patch map
  have records := records_ofEdits source asked
  have fits := records.sound.fits
  have mapIs (everyCharacter : Bool) :
      map everyCharacter = patch.encoded everyCharacter file keep := by
    rw [encoded, records.source]
  have ordered (everyCharacter : Bool) : (map everyCharacter).segments.Pairwise
      fun first second => first.generated.Before second.generated := by
    rw [mapIs, records.sound.segments_encoded]
    exact piecesSegments_ordered fits ⟨0, 0⟩
  refine ⟨fun everyCharacter => ⟨ordered everyCharacter, ?_,
    Encoding.length_written (ordered everyCharacter)⟩, ?_⟩
  · exact List.pairwise_map.mpr ((ordered everyCharacter).imp fun before => before.ne)
  · rw [mapIs, records.sound.segments_encoded, piecesSegments_true fits,
      length_segmentsFrom fits, records.sound.filterMap_kept?, countP_pieces, records.source,
      List.countP_eq_length_filter]

/-- A replacement on two lines that ends with a line feed, and three characters that are kept. -/
example :
    let patch := ofEdits ['a', 'b', '\n', 'c', 'd'] [.overwrite 0 1 ['x', '\n', 'y', '\n']]
    (patch.table.encode patch.source patch.output ⟨none, true, false⟩).segments.length = 5 := by
  decide

end Patch

end ClassHoist
