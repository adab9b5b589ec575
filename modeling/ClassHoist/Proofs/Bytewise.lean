import ClassHoist.Proofs.Histories
import ClassHoist.Proofs.Origins
import Mathlib.Data.List.Find
import Mathlib.Data.List.Perm.Basic

/-! # The edited text, byte by byte

Edits know offsets of bytes only, and so does the reading of them here: at each byte of the source,
what is inserted there comes first, and then the byte itself, or the replacement of the range that
starts there, or nothing inside of a range. The output of a patch is this reading of the accepted
edits, whatever was asked for (`Patch.output_ofEdits`); its bytes come from where the reading takes
them (`Patch.Records.bytes_pieces`).
-/

namespace ClassHoist

open SourceMap

namespace Patch

/-- The bytes that stand for the source byte at an offset after edits: the replacement if a range
starts there, nothing further inside of a range, and the byte itself elsewhere. -/
def bytesFor (source : Text) (edits : List Edit) (offset : Nat) : List UInt8 :=
  match (edits.filterMap Edit.range?).find? fun range =>
      range.start ≤ offset && offset < range.stop with
  | some range => if range.start = offset then range.text.utf8 else []
  | none => source.utf8[offset]?.toList

/-- The text inserted at an offset and what stands for the source byte there. -/
def bytesAt (source : Text) (edits : List Edit) (offset : Nat) : List UInt8 :=
  (insertedBy edits offset).utf8 ++ bytesFor source edits offset

/-- What stands for the source byte at an offset, with where it comes from. -/
def readFor (source : Text) (edits : List Edit) (offset : Nat) : List OutputByte :=
  match (edits.filterMap Edit.range?).find? fun range =>
      range.start ≤ offset && offset < range.stop with
  | some range => if range.start = offset then bytesFrom (.replaced offset) range.text.utf8 else []
  | none => bytesFrom (.copied offset) source.utf8[offset]?.toList

/-- What is inserted at an offset and what stands for the source byte there, with where it comes
from. -/
def readAt (source : Text) (edits : List Edit) (offset : Nat) : List OutputByte :=
  bytesFrom .inserted (insertedBy edits offset).utf8 ++ readFor source edits offset

/-- A source read byte by byte with edits, and what they append. -/
def reading (source : Text) (edits : List Edit) : List OutputByte :=
  (List.range source.utf8.length).flatMap (readAt source edits) ++
    (bytesFrom .inserted (insertedBy edits source.utf8.length).utf8 ++
      bytesFrom .inserted (Text.utf8 (edits.flatMap Edit.appended)))

section Reading

variable (source : Text) (edits : List Edit)

theorem map_byte_readFor (offset : Nat) :
    (readFor source edits offset).map OutputByte.byte = bytesFor source edits offset := by
  unfold readFor bytesFor
  split
  · split
    · exact map_byte_bytesFrom _ _
    · rfl
  · exact map_byte_bytesFrom _ _

theorem map_byte_readAt (offset : Nat) :
    (readAt source edits offset).map OutputByte.byte = bytesAt source edits offset := by
  rw [readAt, List.map_append, map_byte_bytesFrom, map_byte_readFor, bytesAt]

theorem map_byte_reading :
    (reading source edits).map OutputByte.byte =
      (List.range source.utf8.length).flatMap (bytesAt source edits) ++
        ((insertedBy edits source.utf8.length).utf8 ++ Text.utf8 (edits.flatMap Edit.appended)) := by
  rw [reading, List.map_append, List.map_append, List.map_flatMap, map_byte_bytesFrom,
    map_byte_bytesFrom]
  simp only [map_byte_readAt]

end Reading

/-- Going through a text character by character is going through it byte by byte, if it is so for
each character. -/
theorem flatMap_spliced {α β : Type} {inserted : Nat → List α} {written : Nat → Char → List α}
    {part : α → List β} {at_ : Nat → List β} {offset : Nat} {text : Text}
    (each : ∀ before c after, text = before ++ c :: after →
      (List.range' (offset + Text.bytes before) c.utf8Size).flatMap at_ =
        (inserted (offset + Text.bytes before)).flatMap part ++
          (written (offset + Text.bytes before) c).flatMap part) :
    (spliced inserted written offset text).flatMap part =
      (List.range' offset (Text.bytes text)).flatMap at_ := by
  induction text generalizing offset with
  | nil => rfl
  | cons c rest ih =>
    have here := each [] c rest rfl
    have later : (spliced inserted written (offset + c.utf8Size) rest).flatMap part =
        (List.range' (offset + c.utf8Size) (Text.bytes rest)).flatMap at_ := by
      refine ih fun before d after split => ?_
      have found := each (c :: before) d after (congrArg (c :: ·) split)
      rwa [Text.bytes_cons, ← Nat.add_assoc] at found
    rw [Text.bytes_nil, Nat.add_zero] at here
    rw [spliced, List.flatMap_append, List.flatMap_append, later, Text.bytes_cons,
      ← List.range'_append_1, List.flatMap_append, here, List.append_assoc]

/-- Copying byte by byte is copying a part. -/
theorem flatMap_range'_copied (bytes : List UInt8) (start count : Nat) :
    (List.range' start count).flatMap
        (fun place => bytesFrom (.copied place) bytes[place]?.toList) =
      copiedBytes start ((bytes.drop start).take count) := by
  induction count generalizing start with
  | zero => rfl
  | succ count ih =>
    rw [List.range'_succ, List.flatMap_cons, ih]
    cases dropped : bytes.drop start with
    | nil =>
      have past : bytes.length ≤ start := List.drop_eq_nil_iff.mp dropped
      rw [List.getElem?_eq_none past, List.drop_eq_nil_of_le (Nat.le_succ_of_le past),
        List.take_nil, List.take_nil]
      rfl
    | cons byte rest =>
      have here : bytes[start]? = some byte := by
        rw [← List.head?_drop, dropped]
        rfl
      have later : bytes.drop (start + 1) = rest := by
        rw [← List.tail_drop, dropped]
        rfl
      rw [here, later]
      rfl

section Records

variable {patch : Patch} {source before after : Text} {edits : List Edit} {c : Char} {place : Nat}

/-- No boundary of a text lies strictly inside one of its characters. -/
theorem le_of_isBoundary (whole : source = before ++ c :: after)
    (boundary : Text.isBoundary source place = true) (behind : Text.bytes before < place) :
    Text.bytes before + c.utf8Size ≤ place := by
  obtain ⟨longer, rest, whole', placeIs⟩ := Text.isBoundary_iff.mp boundary
  obtain ⟨between, rfl, split⟩ :=
    Text.exists_append_of_bytes_le (whole.symm.trans whole') (by omega)
  rw [Text.bytes_append] at placeIs
  cases between with
  | nil =>
    rw [Text.bytes_nil] at placeIs
    omega
  | cons d more =>
    obtain ⟨rfl, -⟩ := List.cons.inj split
    rw [Text.bytes_cons] at placeIs
    omega

/-- The accepted edits and the patch agree on the range around a byte. -/
theorem Records.find?_range (records : patch.Records source edits) (place : Nat) :
    ((edits.filterMap Edit.range?).find? fun range => range.start ≤ place && place < range.stop) =
      patch.overwrites.find? fun range => range.start ≤ place && place < range.stop := by
  cases found : (edits.filterMap Edit.range?).find? fun range =>
      range.start ≤ place && place < range.stop with
  | none =>
    refine (List.find?_eq_none.mpr fun range member => ?_).symm
    exact List.find?_eq_none.mp found range ((records.ranges range).mp member)
  | some range =>
    have inside := List.find?_some found
    simp only [Bool.and_eq_true, decide_eq_true_eq] at inside
    have member := (records.ranges range).mpr (List.mem_of_find?_eq_some found)
    exact (records.sound.find?_overwrite member inside.1 inside.2).symm

/-- All bytes of a character lie in the same range. -/
theorem Sound.find?_inside (sound : patch.Sound) (whole : patch.source = before ++ c :: after)
    (from_ : Text.bytes before ≤ place) (upTo : place < Text.bytes before + c.utf8Size) :
    (patch.overwrites.find? fun range => range.start ≤ place && place < range.stop) =
      patch.overwrites.find? fun range =>
        range.start ≤ Text.bytes before && Text.bytes before < range.stop := by
  refine List.find?_congr fun range member => ?_
  obtain ⟨isStart, isStop⟩ := sound.bounded range member
  have startsApart := le_of_isBoundary whole isStart
  have stopsApart := le_of_isBoundary whole isStop
  grind

/-- Nothing is inserted strictly inside of a character. -/
theorem Records.insertedBy_inside (records : patch.Records source edits)
    (whole : source = before ++ c :: after) (behind : Text.bytes before < place)
    (upTo : place < Text.bytes before + c.utf8Size) : insertedBy edits place = [] := by
  have none : edits.filter (·.insertsAt place) = [] := by
    refine List.filter_eq_nil_iff.mpr fun edit member inserts => ?_
    have boundary := records.placed edit member place inserts
    rw [records.source] at boundary
    have apart := le_of_isBoundary whole boundary behind
    omega
  rw [insertedBy, none]
  rfl

/-- The bytes of a source character stand at its place. -/
theorem copiedBytes_char (whole : source = before ++ c :: after) :
    (List.range' (Text.bytes before) c.utf8Size).flatMap
        (fun place => bytesFrom (.copied place) (Text.utf8 source)[place]?.toList) =
      copiedBytes (Text.bytes before) (String.utf8EncodeChar c) := by
  have size : Text.bytes before = (Text.utf8 before).length := (Text.length_utf8 before).symm
  have width : c.utf8Size = (String.utf8EncodeChar c).length :=
    (String.length_utf8EncodeChar c).symm
  rw [flatMap_range'_copied, whole, Text.utf8_append, Text.utf8_cons, size, List.drop_left, width,
    List.take_left]

/-- The bytes of a character, and what is inserted in front of it. -/
theorem Records.flatMap_readAt (records : patch.Records source edits)
    (whole : source = before ++ c :: after) :
    (List.range' (Text.bytes before) c.utf8Size).flatMap (readAt source edits) =
      (insertedCellsAt patch.insertions (Text.bytes before)).flatMap Cell.bytes ++
        (writtenCells patch.overwrites (Text.bytes before) c).flatMap Cell.bytes := by
  have range (place : Nat) (from_ : Text.bytes before ≤ place)
      (upTo : place < Text.bytes before + c.utf8Size) :=
    (records.find?_range place).trans
      (records.sound.find?_inside (records.source.trans whole) from_ upTo)
  -- What is inserted stands in front of the first byte, so only what stands for the bytes is left.
  have apart : (List.range' (Text.bytes before) c.utf8Size).flatMap (readAt source edits) =
      bytesFrom .inserted (insertedBy edits (Text.bytes before)).utf8 ++
        (List.range' (Text.bytes before) c.utf8Size).flatMap (readFor source edits) := by
    obtain ⟨more, size⟩ := Nat.exists_eq_add_one.mpr c.utf8Size_pos
    have behind : (List.range' (Text.bytes before + 1) more).flatMap (readAt source edits) =
        (List.range' (Text.bytes before + 1) more).flatMap (readFor source edits) := by
      refine List.flatMap_congr fun place member => ?_
      obtain ⟨from_, upTo⟩ := List.mem_range'_1.mp member
      rw [readAt, records.insertedBy_inside whole (by omega) (by omega)]
      rfl
    rw [size, List.range'_succ, List.flatMap_cons, List.flatMap_cons, behind, readAt,
      List.append_assoc]
  rw [apart, insertedCellsAt, flatMap_bytes_insertedCells, records.inserted]
  congr 1
  unfold writtenCells
  cases around : patch.overwrites.find? fun range =>
      range.start ≤ Text.bytes before && Text.bytes before < range.stop with
  | none =>
    simp only [List.flatMap_singleton, Cell.bytes]
    rw [← copiedBytes_char whole]
    refine List.flatMap_congr fun place member => ?_
    obtain ⟨from_, upTo⟩ := List.mem_range'_1.mp member
    rw [readFor, range place from_ upTo, around]
  | some overwritten =>
    have starts := List.find?_some around
    simp only [Bool.and_eq_true, decide_eq_true_eq] at starts
    obtain ⟨more, size⟩ := Nat.exists_eq_add_one.mpr c.utf8Size_pos
    have behind :
        (List.range' (Text.bytes before + 1) more).flatMap (readFor source edits) = [] := by
      refine List.flatMap_eq_nil_iff.mpr fun place member => ?_
      obtain ⟨from_, upTo⟩ := List.mem_range'_1.mp member
      rw [readFor, range place (by omega) (by omega), around]
      exact if_neg (by omega)
    rw [size, List.range'_succ, List.flatMap_cons, behind, List.append_nil, readFor,
      range _ (Nat.le_refl _) (Nat.lt_add_of_pos_right c.utf8Size_pos), around]
    simp only
    by_cases same : overwritten.start = Text.bytes before
    · rw [if_pos same, if_pos same, flatMap_bytes_replacedCells, same]
    · rw [if_neg same, if_neg same]
      rfl

/-- **The edited text, byte by byte.** Its bytes come from where the reading takes them. -/
theorem Records.bytes_pieces (records : patch.Records source edits) :
    patch.pieces.flatMap Piece.bytes = reading source edits := by
  have through : (splicedCells patch.overwrites patch.insertions 0 source).flatMap Cell.bytes =
      (List.range' 0 (Text.bytes source)).flatMap (readAt source edits) :=
    flatMap_spliced fun before c after whole => by
      rw [Nat.zero_add]
      exact records.flatMap_readAt whole
  rw [flatMap_bytes_pieces, records.sound.cells_pieces, records.source, List.flatMap_append,
    List.flatMap_append, through, insertedCellsAt, flatMap_bytes_insertedCells,
    flatMap_bytes_insertedCells, records.inserted, records.appended, ← Text.length_utf8, reading,
    List.range_eq_range']

theorem utf8_output (patch : Patch) :
    patch.output.utf8 = (patch.pieces.flatMap Piece.bytes).map OutputByte.byte := by
  rw [flatMap_bytes_pieces, map_byte_flatMap_bytes, output_eq_map_char]

end Records

/-- Going through the bytes up to an offset finds every insertion before it once. -/
theorem flatMap_insertsAt_perm (edits : List Edit) (count : Nat) :
    ((List.range count).flatMap fun offset => edits.filter (·.insertsAt offset)).Perm
      (edits.filter fun edit => (List.range count).any (edit.insertsAt ·)) := by
  induction count with
  | zero =>
    rw [List.range_zero, List.flatMap_nil, List.filter_eq_nil_iff.mpr]
    intro edit member found
    cases found
  | succ count ih =>
    have here : (edits.filter fun edit => (List.range (count + 1)).any (edit.insertsAt ·)).filter
        (fun edit => !(List.range count).any (edit.insertsAt ·)) =
          edits.filter (·.insertsAt count) := by
      rw [List.filter_filter]
      refine List.filter_congr fun edit _ => ?_
      rw [List.range_succ, List.any_append]
      cases edit with
      | insert place text =>
        simp only [Edit.insertsAt]
        grind
      | _ => simp [Edit.insertsAt]
    have earlier : (edits.filter fun edit => (List.range (count + 1)).any (edit.insertsAt ·)).filter
        (fun edit => (List.range count).any (edit.insertsAt ·)) =
          edits.filter fun edit => (List.range count).any (edit.insertsAt ·) := by
      rw [List.filter_filter]
      refine List.filter_congr fun edit _ => ?_
      rw [List.range_succ, List.any_append]
      cases (List.range count).any (edit.insertsAt ·) <;> rfl
    rw [List.range_succ, List.flatMap_append, List.flatMap_singleton, ← here, ← List.range_succ]
    refine (ih.append_right _).trans ?_
    rw [← earlier]
    exact List.filter_append_perm _ _

/-- **Every history.** Whatever edits are asked for, the output is the source read byte by byte with
the accepted ones, and what was appended; every accepted insertion is read at one byte. -/
theorem output_ofEdits (source : Text) (asked : List Edit) :
    let accepted := (ofSource source).accepted asked
    let length := (Text.utf8 source).length
    Text.utf8 (ofEdits source asked).output =
        (List.range length).flatMap (fun offset =>
            Text.utf8 (insertedBy accepted offset) ++ bytesFor source accepted offset) ++
          (Text.utf8 (insertedBy accepted length) ++
            Text.utf8 (accepted.flatMap Edit.appended)) ∧
      ((List.range (length + 1)).flatMap fun offset => accepted.filter (·.insertsAt offset)).Perm
        (accepted.filter Edit.isInsertion) := by
  intro accepted length
  have records : (ofEdits source asked).Records source accepted := records_ofEdits source asked
  have lengthIs : length = Text.bytes source := Text.length_utf8 source
  constructor
  · rw [utf8_output, records.bytes_pieces, map_byte_reading]
    rfl
  · refine (flatMap_insertsAt_perm accepted (length + 1)).trans (List.Perm.of_eq ?_)
    refine List.filter_congr fun edit member => ?_
    cases edit with
    | insert place text =>
      have boundary := records.placed _ member place (beq_self_eq_true place)
      have within := Text.bytes_le_of_isBoundary boundary
      rw [records.source, ← lengthIs] at within
      refine List.any_eq_true.mpr ⟨place, List.mem_range.mpr (by omega), beq_self_eq_true place⟩
    | _ => simp [Edit.insertsAt, Edit.isInsertion]

end Patch

end ClassHoist
