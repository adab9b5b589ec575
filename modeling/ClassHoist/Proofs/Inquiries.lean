import ClassHoist.Proofs.Bytewise

/-! # What the table of an edited text answers

The source read byte by byte with the accepted edits says of every output byte where it comes from
(`Patch.reading`). The table answers exactly that for every output byte, and for every source byte
that is in no overwritten range it gives the output byte that copies it; there is one, and the copies
stand in the order of the source (`Patch.queries_ofEdits`).
-/

namespace ClassHoist

open SourceMap

/-- The edit overwrites the source byte at an offset. -/
def Edit.overwrites (offset : Nat) : Edit → Bool
  | overwrite start stop _ => start ≤ offset && offset < stop
  | _ => false

/-- If both bytes are copied, the first is from further in front. -/
def SourceMap.OutputByte.Follows (first second : OutputByte) : Prop :=
  ∀ offset offset', first.origin = .copied offset → second.origin = .copied offset' →
    offset < offset'

namespace Patch

section Reading

variable {source : Text} {edits : List Edit} {offset place : Nat} {byte : UInt8}

/-- No range of the edits has a byte that none of them overwrites. -/
theorem find?_range_eq_none_iff :
    ((edits.filterMap Edit.range?).find? fun range =>
        range.start ≤ offset && offset < range.stop) = none ↔
      ∀ edit ∈ edits, edit.overwrites offset = false := by
  rw [List.find?_eq_none]
  constructor
  · intro none edit member
    cases edit with
    | overwrite start stop text =>
      have isRange : (⟨start, stop, text⟩ : Overwrite) ∈ edits.filterMap Edit.range? :=
        List.mem_filterMap.mpr ⟨_, member, rfl⟩
      exact Bool.eq_false_iff.mpr (none _ isRange)
    | insert | append => rfl
  · intro none range member
    obtain ⟨edit, isEdit, same⟩ := List.mem_filterMap.mp member
    cases edit with
    | overwrite start stop text =>
      obtain rfl := Option.some.inj same
      exact Bool.eq_false_iff.mp (none _ isEdit)
    | insert | append => cases same

/-- What stands for a byte that is not overwritten is the byte. -/
theorem readFor_of_kept (kept : ∀ edit ∈ edits, edit.overwrites offset = false) :
    readFor source edits offset = bytesFrom (.copied offset) source.utf8[offset]?.toList := by
  rw [readFor, find?_range_eq_none_iff.mpr kept]

/-- Nothing that stands for an overwritten byte is copied. -/
theorem readFor_of_overwritten (overwritten : ¬ ∀ edit ∈ edits, edit.overwrites offset = false) :
    ∃ bytes, readFor source edits offset = bytesFrom (.replaced offset) bytes := by
  rw [← find?_range_eq_none_iff, ← ne_eq, Option.ne_none_iff_exists'] at overwritten
  obtain ⟨range, found⟩ := overwritten
  rw [readFor, found]
  by_cases starts : range.start = offset
  · exact ⟨range.text.utf8, if_pos starts⟩
  · exact ⟨[], if_neg starts⟩

theorem not_mem_bytesFrom {origin : ByteOrigin} {bytes : List UInt8} (other : origin ≠ .copied place) :
    ⟨byte, .copied place⟩ ∉ bytesFrom origin bytes :=
  fun member => other (origin_of_mem_bytesFrom member).symm

/-- What is read at an offset copies the byte there, if it is not overwritten. -/
theorem mem_readAt_copied_iff :
    ⟨byte, .copied place⟩ ∈ readAt source edits offset ↔
      place = offset ∧ source.utf8[offset]? = some byte ∧
        ∀ edit ∈ edits, edit.overwrites offset = false := by
  rw [readAt, List.mem_append, or_iff_right (not_mem_bytesFrom ByteOrigin.noConfusion)]
  by_cases kept : ∀ edit ∈ edits, edit.overwrites offset = false
  · rw [readFor_of_kept kept, and_iff_left kept, bytesFrom, List.mem_map]
    simp only [Option.mem_toList, OutputByte.mk.injEq, ByteOrigin.copied.injEq]
    constructor
    · rintro ⟨found, isThere, rfl, rfl⟩
      exact ⟨rfl, isThere⟩
    · rintro ⟨rfl, isThere⟩
      exact ⟨byte, isThere, rfl, rfl⟩
  · obtain ⟨bytes, read⟩ := @readFor_of_overwritten source edits offset kept
    rw [read]
    exact iff_of_false (not_mem_bytesFrom ByteOrigin.noConfusion) fun copied => kept copied.2.2

/-- The bytes that are copied are those that are not overwritten. -/
theorem mem_reading_copied_iff :
    ⟨byte, .copied offset⟩ ∈ reading source edits ↔
      source.utf8[offset]? = some byte ∧ ∀ edit ∈ edits, edit.overwrites offset = false := by
  have notBehind : ⟨byte, .copied offset⟩ ∉
      bytesFrom .inserted (insertedBy edits source.utf8.length).utf8 ++
        bytesFrom .inserted (Text.utf8 (edits.flatMap Edit.appended)) := fun member =>
    (List.mem_append.mp member).elim (not_mem_bytesFrom ByteOrigin.noConfusion)
      (not_mem_bytesFrom ByteOrigin.noConfusion)
  rw [reading, List.mem_append, or_iff_left notBehind, List.mem_flatMap]
  simp only [mem_readAt_copied_iff]
  constructor
  · rintro ⟨_, -, rfl, found⟩
    exact found
  · rintro ⟨isThere, kept⟩
    obtain ⟨inside, -⟩ := List.getElem?_eq_some_iff.mp isThere
    exact ⟨offset, List.mem_range.mpr inside, rfl, isThere, kept⟩

theorem pairwise_of_not_copied {bytes : List OutputByte}
    (none : ∀ output ∈ bytes, ∀ offset, output.origin ≠ .copied offset) :
    bytes.Pairwise OutputByte.Follows :=
  List.pairwise_iff_getElem.mpr fun _ _ _ _ _ offset _ copied =>
    absurd copied (none _ (List.getElem_mem _) offset)

/-- At most one byte is copied at an offset. -/
theorem pairwise_readAt : (readAt source edits offset).Pairwise OutputByte.Follows := by
  have notInserted : ∀ output ∈ bytesFrom .inserted (insertedBy edits offset).utf8, ∀ place,
      output.origin ≠ .copied place := by
    intro output member place copied
    exact ByteOrigin.noConfusion ((origin_of_mem_bytesFrom member).symm.trans copied)
  refine List.pairwise_append.mpr ⟨pairwise_of_not_copied notInserted, ?_,
    fun output member _ _ place _ copied => absurd copied (notInserted output member place)⟩
  by_cases kept : ∀ edit ∈ edits, edit.overwrites offset = false
  · rw [readFor_of_kept kept]
    cases source.utf8[offset]? with
    | none => exact List.Pairwise.nil
    | some byte => exact List.pairwise_singleton _ _
  · obtain ⟨bytes, read⟩ := @readFor_of_overwritten source edits offset kept
    rw [read]
    refine pairwise_of_not_copied fun output member place copied => ?_
    exact ByteOrigin.noConfusion ((origin_of_mem_bytesFrom member).symm.trans copied)

/-- **The order of the copies.** Copied bytes stand in the order of the source. -/
theorem pairwise_reading : (reading source edits).Pairwise OutputByte.Follows := by
  have notBehind : ∀ output ∈ bytesFrom .inserted (insertedBy edits source.utf8.length).utf8 ++
      bytesFrom .inserted (Text.utf8 (edits.flatMap Edit.appended)), ∀ place,
        output.origin ≠ .copied place := by
    intro output member place copied
    have isInserted : output.origin = .inserted :=
      (List.mem_append.mp member).elim origin_of_mem_bytesFrom origin_of_mem_bytesFrom
    exact ByteOrigin.noConfusion (isInserted.symm.trans copied)
  refine List.pairwise_append.mpr ⟨List.pairwise_flatMap.mpr ⟨fun offset _ => pairwise_readAt, ?_⟩,
    pairwise_of_not_copied notBehind,
    fun _ _ output member _ place _ copied => absurd copied (notBehind output member place)⟩
  refine List.pairwise_lt_range.imp ?_
  rintro offset offset' before ⟨byte, _⟩ isFirst ⟨byte', _⟩ isSecond place place' rfl rfl
  obtain ⟨rfl, -⟩ := mem_readAt_copied_iff.mp isFirst
  obtain ⟨rfl, -⟩ := mem_readAt_copied_iff.mp isSecond
  exact before

end Reading

section Queries

variable {patch : Patch} {source : Text} {edits : List Edit} {generated generated' : Nat}
  {offset offset' : Nat}

theorem Records.source?_table (records : patch.Records source edits) (generated : Nat) :
    patch.table.source? generated =
      (reading source edits)[generated]?.bind fun output => output.origin.source? := by
  rw [table, Table.source?_ofPieces, records.bytes_pieces]

theorem Records.generated?_table (records : patch.Records source edits) (offset : Nat) :
    patch.table.generated? offset =
      (reading source edits).findIdx? (OutputByte.copies offset) := by
  rw [table, Table.generated?_ofPieces, records.bytes_pieces]

/-- The output byte found for a source byte is its copy. -/
theorem Records.getElem?_of_generated? (records : patch.Records source edits)
    (found : patch.table.generated? offset = some generated) :
    ∃ byte, (reading source edits)[generated]? = some ⟨byte, .copied offset⟩ := by
  rw [records.generated?_table, List.findIdx?_eq_some_iff_getElem] at found
  obtain ⟨inside, copies, -⟩ := found
  refine ⟨(reading source edits)[generated].byte, List.getElem?_eq_some_iff.mpr ⟨inside, ?_⟩⟩
  rw [← beq_iff_eq.mp copies]

/-- An overwritten byte has no copy. -/
theorem Records.generated?_eq_none (records : patch.Records source edits)
    (overwritten : ∃ edit ∈ edits, edit.overwrites offset = true) :
    patch.table.generated? offset = none := by
  rw [Option.eq_none_iff_forall_ne_some]
  intro generated found
  obtain ⟨byte, isThere⟩ := records.getElem?_of_generated? found
  obtain ⟨-, kept⟩ := mem_reading_copied_iff.mp (List.mem_of_getElem? isThere)
  obtain ⟨edit, member, overwrites⟩ := overwritten
  exact Bool.false_ne_true ((kept edit member).symm.trans overwrites)

/-- A byte that is not overwritten has a copy, which is attributed to it. -/
theorem Records.exists_generated? (records : patch.Records source edits)
    (inside : offset < source.utf8.length)
    (kept : ∀ edit ∈ edits, edit.overwrites offset = false) :
    ∃ generated, patch.table.generated? offset = some generated ∧
      patch.output.utf8[generated]? = source.utf8[offset]? ∧
      patch.table.source? generated = some offset := by
  have copied : ⟨source.utf8[offset], .copied offset⟩ ∈ reading source edits :=
    mem_reading_copied_iff.mpr ⟨List.getElem?_eq_getElem inside, kept⟩
  have found : (patch.table.generated? offset).isSome = true := by
    rw [records.generated?_table, List.findIdx?_isSome]
    exact List.any_eq_true.mpr ⟨_, copied, beq_self_eq_true _⟩
  obtain ⟨generated, isThere⟩ := Option.isSome_iff_exists.mp found
  obtain ⟨byte, read⟩ := records.getElem?_of_generated? isThere
  obtain ⟨isByte, -⟩ := mem_reading_copied_iff.mp (List.mem_of_getElem? read)
  refine ⟨generated, isThere, ?_, ?_⟩
  · rw [utf8_output, records.bytes_pieces, List.getElem?_map, read, isByte]
    rfl
  · rw [records.source?_table, read]
    rfl

/-- Of two source bytes the one further in front has its copy further in front. -/
theorem Records.generated?_lt (records : patch.Records source edits) (before : offset < offset')
    (found : patch.table.generated? offset = some generated)
    (found' : patch.table.generated? offset' = some generated') : generated < generated' := by
  obtain ⟨byte, read⟩ := records.getElem?_of_generated? found
  obtain ⟨byte', read'⟩ := records.getElem?_of_generated? found'
  rcases Nat.lt_trichotomy generated generated' with isBefore | rfl | isBehind
  · exact isBefore
  · obtain ⟨-, same⟩ := OutputByte.mk.inj (Option.some.inj (read.symm.trans read'))
    exact absurd (ByteOrigin.copied.inj same) (Nat.ne_of_lt before)
  · obtain ⟨inside, isThere⟩ := List.getElem?_eq_some_iff.mp read
    obtain ⟨inside', isThere'⟩ := List.getElem?_eq_some_iff.mp read'
    have follows := List.pairwise_iff_getElem.mp (@pairwise_reading source edits) generated'
      generated inside' inside isBehind offset' offset (by rw [isThere']) (by rw [isThere])
    exact absurd follows (Nat.lt_asymm before)

end Queries

/-- **Every query.** Whatever edits are asked for, the table attributes every output byte to where
the reading of the accepted edits takes it from, and finds the copy of every source byte that none of
them overwrites. -/
theorem queries_ofEdits (source : Text) (asked : List Edit) :
    let patch := ofEdits source asked
    let accepted := (ofSource source).accepted asked
    let read := reading source accepted
    patch.output.utf8 = read.map OutputByte.byte ∧
      (∀ generated, patch.table.source? generated =
        read[generated]?.bind fun output => output.origin.source?) ∧
      (∀ generated, patch.output.utf8.length ≤ generated →
        patch.table.source? generated = none) ∧
      (∀ offset, (∃ edit ∈ accepted, edit.overwrites offset = true) →
        patch.table.generated? offset = none) ∧
      (∀ offset, offset < source.utf8.length →
        (∀ edit ∈ accepted, edit.overwrites offset = false) →
        ∃ generated, patch.table.generated? offset = some generated ∧
          patch.output.utf8[generated]? = source.utf8[offset]? ∧
          patch.table.source? generated = some offset) ∧
      ∀ offset offset' generated generated', offset < offset' →
        patch.table.generated? offset = some generated →
        patch.table.generated? offset' = some generated' → generated < generated' := by
  intro patch accepted read
  have records : patch.Records source accepted := records_ofEdits source asked
  have output : patch.output.utf8 = read.map OutputByte.byte := by
    rw [utf8_output, records.bytes_pieces]
  refine ⟨output, records.source?_table, fun generated beyond => ?_,
    fun offset => records.generated?_eq_none, fun offset => records.exists_generated?,
    fun offset offset' generated generated' => records.generated?_lt⟩
  rw [output, List.length_map] at beyond
  rw [records.source?_table, List.getElem?_eq_none beyond]
  rfl

/-- A replacement with an insertion behind it, in front of a character of two bytes. -/
theorem queries_ofEdits_behind :
    let source : Text := ['a', 'b', 'c', 'é']
    let asked : List Edit := [.overwrite 1 3 ['x'], .insert 3 ['>'], .overwrite 2 3 [], .append ['!']]
    let patch := ofEdits source asked
    let accepted := (ofSource source).accepted asked
    accepted = [.overwrite 1 3 ['x'], .insert 3 ['>'], .append ['!']] ∧
      (List.range 6).map patch.table.source? =
        [some 0, some 1, none, some 3, some 4, none] ∧
      patch.output.utf8.length ≤ 6 ∧ patch.table.source? 6 = none ∧
      (∃ edit ∈ accepted, edit.overwrites 2 = true) ∧ patch.table.generated? 2 = none ∧
      (∀ edit ∈ accepted, edit.overwrites 0 = false) ∧
      (∀ edit ∈ accepted, edit.overwrites 4 = false) ∧
      ∃ first second, patch.table.generated? 0 = some first ∧
        patch.table.generated? 4 = some second ∧ first < second ∧
        patch.output.utf8[second]? = source.utf8[4]? ∧ patch.table.source? second = some 4 := by
  intro source asked patch accepted
  have isAccepted : accepted = [.overwrite 1 3 ['x'], .insert 3 ['>'], .append ['!']] := by decide
  obtain ⟨-, sources, behind, gone, kept, ordered⟩ := queries_ofEdits source asked
  have overwritten : ∃ edit ∈ accepted, edit.overwrites 2 = true := by
    rw [isAccepted]
    decide
  have first : ∀ edit ∈ accepted, edit.overwrites 0 = false := by
    rw [isAccepted]
    decide
  have second : ∀ edit ∈ accepted, edit.overwrites 4 = false := by
    rw [isAccepted]
    decide
  have short : patch.output.utf8.length ≤ 6 := by decide
  obtain ⟨place, isFirst, -⟩ := kept 0 (by decide) first
  obtain ⟨place', isSecond, byte, source'⟩ := kept 4 (by decide) second
  refine ⟨isAccepted, ?_, short, behind 6 short, overwritten, gone 2 overwritten, first, second,
    place, place', isFirst, isSecond, ordered 0 4 place place' (by decide) isFirst isSecond, byte,
    source'⟩
  refine (List.map_congr_left fun place _ => sources place).trans ?_
  decide

end Patch

end ClassHoist
