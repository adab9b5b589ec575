import ClassHoist.Proofs.Splice
import ClassHoist.Text.Utf8
import Mathlib.Data.List.Basic
import Mathlib.Data.List.Find

/-! # Where the bytes of an output come from

Every byte of an output is copied from a byte of the source, belongs to a replacement or was inserted
(`OutputByte`). The bytes of the pieces of an output, told apart so, answer what a table is asked: the
source of the byte at an offset (`Table.source?_ofPieces`), and the offset of the first copy of a
source byte (`Table.generated?_ofPieces`).
-/

namespace ClassHoist

namespace SourceMap

/-- Where a byte of an output comes from: it is the source byte at an offset, it belongs to a
replacement for the source from an offset on, or it is not in the source. -/
inductive ByteOrigin where
  | copied (offset : Nat)
  | replaced (start : Nat)
  | inserted
  deriving DecidableEq, Repr

/-- The source offset that a byte is attributed to. -/
def ByteOrigin.source? : ByteOrigin → Option Nat
  | copied offset => some offset
  | replaced start => some start
  | inserted => none

/-- A byte of an output and where it comes from. -/
structure OutputByte where
  byte : UInt8
  origin : ByteOrigin
  deriving DecidableEq, Repr

/-- The byte is the source byte at an offset. -/
def OutputByte.copies (offset : Nat) (output : OutputByte) : Bool :=
  output.origin == .copied offset

/-- Bytes that all come from one place. -/
def bytesFrom (origin : ByteOrigin) (bytes : List UInt8) : List OutputByte :=
  bytes.map fun byte => ⟨byte, origin⟩

/-- Bytes copied one after the other from an offset on. -/
def copiedBytes (offset : Nat) : List UInt8 → List OutputByte
  | [] => []
  | byte :: rest => ⟨byte, .copied offset⟩ :: copiedBytes (offset + 1) rest

/-- The bytes of a character of an output. -/
def Cell.bytes (cell : Cell) : List OutputByte :=
  match cell.origin with
  | .copied offset => copiedBytes offset (String.utf8EncodeChar cell.char)
  | .replaced start _ => bytesFrom (.replaced start) (String.utf8EncodeChar cell.char)
  | .inserted => bytesFrom .inserted (String.utf8EncodeChar cell.char)

/-- The bytes of a piece of output. -/
def Piece.bytes : Piece → List OutputByte
  | .copied start text => copiedBytes start text.utf8
  | .replaced span text => bytesFrom (.replaced span.start) text.utf8
  | .inserted text => bytesFrom .inserted text.utf8

section Bytes

variable {offset : Nat} {bytes : List UInt8}

/-- Bytes from one place read as the bytes. -/
theorem map_byte_bytesFrom (origin : ByteOrigin) (bytes : List UInt8) :
    (bytesFrom origin bytes).map OutputByte.byte = bytes := by
  rw [bytesFrom, List.map_map]
  exact List.map_id bytes

/-- Copied bytes read as the bytes they are copied from. -/
theorem map_byte_copiedBytes (offset : Nat) (bytes : List UInt8) :
    (copiedBytes offset bytes).map OutputByte.byte = bytes := by
  induction bytes generalizing offset with
  | nil => rfl
  | cons byte rest ih => exact congrArg (byte :: ·) (ih _)

/-- Bytes from one place come from there. -/
theorem origin_of_mem_bytesFrom {origin : ByteOrigin} {output : OutputByte}
    (member : output ∈ bytesFrom origin bytes) : output.origin = origin := by
  obtain ⟨byte, -, rfl⟩ := List.mem_map.mp member
  rfl

/-- Copying two parts copies one behind the other. -/
theorem copiedBytes_append (offset : Nat) (first second : List UInt8) :
    copiedBytes offset (first ++ second) =
      copiedBytes offset first ++ copiedBytes (offset + first.length) second := by
  induction first generalizing offset with
  | nil => rfl
  | cons byte rest ih =>
    rw [List.cons_append, copiedBytes, ih, copiedBytes, List.length_cons, Nat.add_right_comm,
      Nat.add_assoc]
    rfl

/-- A copied byte is attributed to its own offset. -/
theorem copiedBytes_getElem?_bind (offset : Nat) (bytes : List UInt8) (place : Nat) :
    ((copiedBytes offset bytes)[place]?.bind fun output => output.origin.source?) =
      if place < bytes.length then some (offset + place) else none := by
  induction bytes generalizing offset place with
  | nil => rfl
  | cons byte rest ih =>
    cases place with
    | zero => rfl
    | succ place =>
      rw [copiedBytes, List.getElem?_cons_succ, ih]
      simp only [List.length_cons, Nat.add_lt_add_iff_right, Nat.add_right_comm, Nat.add_assoc]

/-- Every byte from one place is attributed to it. -/
theorem bytesFrom_getElem?_bind (origin : ByteOrigin) (bytes : List UInt8) (place : Nat) :
    ((bytesFrom origin bytes)[place]?.bind fun output => output.origin.source?) =
      if place < bytes.length then origin.source? else none := by
  rw [bytesFrom, List.getElem?_map]
  split
  case isTrue inside =>
    rw [List.getElem?_eq_getElem inside]
    rfl
  case isFalse outside =>
    rw [List.getElem?_eq_none (Nat.le_of_not_lt outside)]
    rfl

/-- The first copy of a source byte among bytes copied one after the other. -/
theorem findIdx?_copiedBytes (offset : Nat) (bytes : List UInt8) (place : Nat) :
    (copiedBytes offset bytes).findIdx? (OutputByte.copies place) =
      if offset ≤ place ∧ place < offset + bytes.length then some (place - offset) else none := by
  induction bytes generalizing offset with
  | nil =>
    rw [if_neg (by rw [List.length_nil]; omega)]
    rfl
  | cons byte rest ih =>
    rw [copiedBytes, List.findIdx?_cons, List.length_cons]
    by_cases here : offset = place
    · subst here
      have same : OutputByte.copies offset ⟨byte, .copied offset⟩ = true := beq_self_eq_true _
      rw [if_pos same, if_pos (by omega), Nat.sub_self]
    · have differs : OutputByte.copies place ⟨byte, .copied offset⟩ = false :=
        beq_eq_false_iff_ne.mpr fun same => here (ByteOrigin.copied.inj same)
      rw [if_neg (by rw [differs]; exact Bool.false_ne_true), ih]
      by_cases later : offset + 1 ≤ place ∧ place < offset + 1 + rest.length
      · rw [if_pos later, if_pos (by omega), Option.map_some]
        exact congrArg some (by omega)
      · rw [if_neg later, if_neg (by omega)]
        rfl

/-- There is no copy among bytes that come from elsewhere. -/
theorem findIdx?_bytesFrom {origin : ByteOrigin} {place : Nat} (other : origin ≠ .copied place) :
    (bytesFrom origin bytes).findIdx? (OutputByte.copies place) = none := by
  refine List.findIdx?_eq_none_iff.mpr fun output member => ?_
  rw [OutputByte.copies, origin_of_mem_bytesFrom member]
  exact beq_eq_false_iff_ne.mpr other

end Bytes

section Pieces

variable {offset : Nat} {piece : Piece} {pieces : List Piece}

/-- The bytes of cells are those of their characters. -/
theorem map_byte_flatMap_bytes (cells : List Cell) :
    (cells.flatMap Cell.bytes).map OutputByte.byte = Text.utf8 (cells.map Cell.char) := by
  rw [List.map_flatMap, Text.utf8, List.flatMap_map]
  refine List.flatMap_congr fun cell _ => ?_
  unfold Cell.bytes
  split
  · exact map_byte_copiedBytes _ _
  · exact map_byte_bytesFrom _ _
  · exact map_byte_bytesFrom _ _

/-- Copied cells have the bytes of their text, copied. -/
theorem flatMap_bytes_copiedCells (offset : Nat) (text : Text) :
    (copiedCells offset text).flatMap Cell.bytes = copiedBytes offset text.utf8 := by
  induction text generalizing offset with
  | nil => rfl
  | cons c rest ih =>
    rw [copiedCells, List.flatMap_cons, ih, Text.utf8_cons, copiedBytes_append,
      String.length_utf8EncodeChar]
    rfl

/-- The cells of a replacement have its bytes, from the start of the range. -/
theorem flatMap_bytes_replacedCells (start : Nat) (marked : Bool) (text : Text) :
    (replacedCells start marked text).flatMap Cell.bytes =
      bytesFrom (.replaced start) text.utf8 := by
  induction text generalizing marked with
  | nil => rfl
  | cons c rest ih =>
    rw [replacedCells, List.flatMap_cons, ih, Text.utf8_cons, bytesFrom, bytesFrom,
      List.map_append]
    rfl

/-- Inserted cells have the bytes of their text, which are not in the source. -/
theorem flatMap_bytes_insertedCells (text : Text) :
    (insertedCells text).flatMap Cell.bytes = bytesFrom .inserted text.utf8 := by
  rw [insertedCells, List.flatMap_map, bytesFrom, Text.utf8, List.map_flatMap]
  rfl

/-- The bytes of a piece are those of its characters. -/
theorem Piece.flatMap_bytes_cells (piece : Piece) : piece.cells.flatMap Cell.bytes = piece.bytes := by
  cases piece with
  | copied start text => exact flatMap_bytes_copiedCells start text
  | replaced span text => exact flatMap_bytes_replacedCells span.start true text
  | inserted text => exact flatMap_bytes_insertedCells text

/-- The bytes of pieces are those of their cells. -/
theorem flatMap_bytes_pieces (pieces : List Piece) :
    pieces.flatMap Piece.bytes = (pieces.flatMap Piece.cells).flatMap Cell.bytes := by
  rw [List.flatMap_assoc]
  exact congrArg (fun f => pieces.flatMap f)
    (funext fun piece => piece.flatMap_bytes_cells.symm)

/-- A piece has as many bytes as its text. -/
theorem Piece.length_bytes (piece : Piece) : piece.bytes.length = piece.text.bytes := by
  rw [← List.length_map OutputByte.byte, ← piece.flatMap_bytes_cells, map_byte_flatMap_bytes,
    piece.map_char_cells, Text.length_utf8]

/-- Only copied text and replacements have a mapping, if they are not empty. -/
theorem mapping?_eq_some {offset : Nat} {piece : Piece} {mapping : Mapping}
    (mapped : Trace.mapping? offset piece = some mapping) :
    piece.text ≠ [] ∧ mapping.generated = ⟨offset, offset + piece.text.bytes⟩ ∧
      ((∃ start text, piece = .copied start text ∧ mapping.relation = .copied ∧
          mapping.source.start = start) ∨
        ∃ span text, piece = .replaced span text ∧ mapping.relation = .replaced ∧
          mapping.source.start = span.start) := by
  cases piece with
  | inserted text => cases mapped
  | copied start text =>
    rw [Trace.mapping?, Option.ite_none_left_eq_some, Option.some.injEq, List.isEmpty_iff] at mapped
    obtain ⟨nonempty, rfl⟩ := mapped
    exact ⟨nonempty, rfl, .inl ⟨start, text, rfl, rfl, rfl⟩⟩
  | replaced span text =>
    rw [Trace.mapping?, Option.ite_none_left_eq_some, Option.some.injEq, List.isEmpty_iff] at mapped
    obtain ⟨nonempty, rfl⟩ := mapped
    exact ⟨nonempty, rfl, .inr ⟨span, text, rfl, rfl, rfl⟩⟩

namespace Table

variable {mappings : List Mapping}

/-- A mapping that does not hold an offset is passed over. -/
theorem source?_cons_of_outside {generated : Nat}
    (outside : ¬ (offset ≤ generated ∧ generated < offset + piece.text.bytes)) :
    source? ⟨(Trace.mapping? offset piece).toList ++ mappings⟩ generated =
      source? ⟨mappings⟩ generated := by
  have passed : ((Trace.mapping? offset piece).toList ++ mappings).find?
      (·.generated.contains generated) = mappings.find? (·.generated.contains generated) := by
    cases mapped : Trace.mapping? offset piece with
    | none => rfl
    | some mapping =>
      obtain ⟨-, generatedIs, -⟩ := mapping?_eq_some mapped
      refine List.find?_cons_of_neg ?_
      simp only [generatedIs, Span.contains, Bool.and_eq_true, decide_eq_true_eq]
      exact outside
  simp only [source?, passed]

/-- A mapping that holds an offset decides. -/
theorem source?_cons_of_contains {mapping : Mapping} {generated : Nat}
    (holds : mapping.generated.contains generated = true) :
    source? ⟨mapping :: mappings⟩ generated =
      match mapping.relation with
      | .copied => some (mapping.source.start + (generated - mapping.generated.start))
      | .replaced => some mapping.source.start := by
  have first : (mapping :: mappings).find? (·.generated.contains generated) = some mapping :=
    List.find?_cons_of_pos holds
  simp only [source?, first]
  rfl

/-- The output bytes of a piece are attributed as its mapping says. -/
theorem source?_cons_of_inside {place : Nat} (inside : place < piece.text.bytes)
    (later : source? ⟨mappings⟩ (offset + place) = none) :
    source? ⟨(Trace.mapping? offset piece).toList ++ mappings⟩ (offset + place) =
      piece.bytes[place]?.bind fun output => output.origin.source? := by
  have nonempty : ¬ piece.text.isEmpty = true := by
    rw [List.isEmpty_iff]
    intro empty
    rw [empty, Text.bytes_nil] at inside
    omega
  have holds : Span.contains ⟨offset, offset + piece.text.bytes⟩ (offset + place) = true := by
    simp only [Span.contains, Bool.and_eq_true, decide_eq_true_eq]
    omega
  rw [← Text.length_utf8] at inside
  cases piece with
  | copied start text =>
    have mapped : Trace.mapping? offset (.copied start text) =
        some ⟨.copied, ⟨offset, offset + text.bytes⟩, ⟨start, start + text.bytes⟩⟩ :=
      if_neg nonempty
    have attributed := (copiedBytes_getElem?_bind start text.utf8 place).trans (if_pos inside)
    rw [Piece.bytes, attributed, mapped, Option.toList_some, List.singleton_append,
      source?_cons_of_contains holds]
    exact congrArg (fun more => some (start + more)) (Nat.add_sub_cancel_left offset place)
  | replaced span text =>
    have mapped : Trace.mapping? offset (.replaced span text) =
        some ⟨.replaced, ⟨offset, offset + text.bytes⟩, span⟩ := if_neg nonempty
    have attributed :=
      (bytesFrom_getElem?_bind (.replaced span.start) text.utf8 place).trans (if_pos inside)
    rw [Piece.bytes, attributed, mapped, Option.toList_some, List.singleton_append,
      source?_cons_of_contains holds]
    rfl
  | inserted text =>
    have attributed := (bytesFrom_getElem?_bind .inserted text.utf8 place).trans (if_pos inside)
    exact later.trans attributed.symm

/-- Nothing in front of an output has a source. -/
theorem source?_mappingsFrom_of_lt {generated : Nat} (before : generated < offset) :
    source? ⟨mappingsFrom offset pieces⟩ generated = none := by
  induction pieces generalizing offset with
  | nil => rfl
  | cons piece rest ih =>
    rw [mappingsFrom, source?_cons_of_outside (by omega)]
    exact ih (by omega)

/-- The source of a byte of the output is where it was copied or replaced from. -/
theorem source?_mappingsFrom (offset : Nat) (pieces : List Piece) (place : Nat) :
    source? ⟨mappingsFrom offset pieces⟩ (offset + place) =
      (pieces.flatMap Piece.bytes)[place]?.bind fun output => output.origin.source? := by
  induction pieces generalizing offset place with
  | nil => rfl
  | cons piece rest ih =>
    have size := piece.length_bytes
    rw [mappingsFrom, List.flatMap_cons]
    by_cases inside : place < piece.text.bytes
    · rw [source?_cons_of_inside inside (source?_mappingsFrom_of_lt (by omega)),
        List.getElem?_append_left (by omega)]
    · have later := ih (offset + piece.text.bytes) (place - piece.text.bytes)
      rw [show offset + piece.text.bytes + (place - piece.text.bytes) = offset + place by omega]
        at later
      rw [source?_cons_of_outside (by omega), List.getElem?_append_right (by omega), size, later]

/-- **The source of a byte.** The table of an output attributes each byte as its piece does. -/
theorem source?_ofPieces (pieces : List Piece) (place : Nat) :
    (ofPieces pieces).source? place =
      (pieces.flatMap Piece.bytes)[place]?.bind fun output => output.origin.source? := by
  have found := source?_mappingsFrom 0 pieces place
  rwa [Nat.zero_add] at found

/-- The first copy of a source byte is in the first piece that has it. -/
theorem generated?_cons (offset : Nat) (piece : Piece) (place : Nat) :
    generated? ⟨(Trace.mapping? offset piece).toList ++ mappings⟩ place =
      ((piece.bytes.findIdx? (OutputByte.copies place)).map (offset + ·)).or
        (generated? ⟨mappings⟩ place) := by
  cases piece with
  | copied start text =>
    rw [Piece.bytes, findIdx?_copiedBytes, Text.length_utf8, Trace.mapping?]
    by_cases holds : start ≤ place ∧ place < start + text.bytes
    · have nonempty : ¬ text.isEmpty = true := by
        rw [List.isEmpty_iff]
        rintro rfl
        rw [Text.bytes_nil] at holds
        omega
      rw [if_pos holds, if_neg nonempty, generated?, Option.toList_some, List.singleton_append,
        List.find?_cons_of_pos (by simpa [Span.contains] using holds)]
      rfl
    · rw [if_neg holds, Option.map_none, Option.none_or]
      split
      · rfl
      · rw [generated?, Option.toList_some, List.singleton_append,
          List.find?_cons_of_neg (by simpa [Span.contains] using holds)]
        rfl
  | replaced span text =>
    have noCopy : (Piece.bytes (.replaced span text)).findIdx? (OutputByte.copies place) = none :=
      findIdx?_bytesFrom ByteOrigin.noConfusion
    rw [noCopy, Trace.mapping?]
    split <;> rfl
  | inserted text =>
    have noCopy : (Piece.bytes (.inserted text)).findIdx? (OutputByte.copies place) = none :=
      findIdx?_bytesFrom ByteOrigin.noConfusion
    rw [noCopy]
    rfl

/-- The offset of a source byte in the output is that of its first copy. -/
theorem generated?_mappingsFrom (offset : Nat) (pieces : List Piece) (place : Nat) :
    generated? ⟨mappingsFrom offset pieces⟩ place =
      ((pieces.flatMap Piece.bytes).findIdx? (OutputByte.copies place)).map (offset + ·) := by
  induction pieces generalizing offset with
  | nil => rfl
  | cons piece rest ih =>
    rw [mappingsFrom, generated?_cons, ih, List.flatMap_cons, List.findIdx?_append,
      piece.length_bytes]
    cases piece.bytes.findIdx? (OutputByte.copies place) with
    | some index => rfl
    | none =>
      simp only [Option.map_none, Option.none_or, Option.map_map]
      refine congrArg (fun f => Option.map f _) (funext fun index => ?_)
      simp only [Function.comp_apply]
      omega

/-- **The copy of a byte.** The table of an output finds the first byte that copies a source byte. -/
theorem generated?_ofPieces (pieces : List Piece) (place : Nat) :
    (ofPieces pieces).generated? place =
      (pieces.flatMap Piece.bytes).findIdx? (OutputByte.copies place) := by
  refine (generated?_mappingsFrom 0 pieces place).trans ?_
  simp only [Nat.zero_add, Option.map_id']

end Table

end Pieces

end SourceMap

end ClassHoist
