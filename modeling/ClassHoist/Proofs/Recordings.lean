import ClassHoist.Proofs.Lookups

/-! # What every history of recording keeps

Pieces of output are recorded one after the other, and what they come from may overlap. Their output
does not: the mappings of a trace are not empty, follow each other, and end within the output so far
(`Trace.Consistent`), and recording a piece keeps this (`Trace.Consistent.record`). So the mapping that
holds an output offset is the last that starts at or before it (`Trace.Consistent.find?_eq`), and the
first copy that is found of a source byte is attributed to that byte
(`Trace.Consistent.source?_of_generated?`).
-/

namespace ClassHoist

theorem Span.contains_iff {span : Span} {offset : Nat} :
    span.contains offset = true ↔ span.start ≤ offset ∧ offset < span.stop := by
  rw [contains, Bool.and_eq_true, decide_eq_true_eq, decide_eq_true_eq]

namespace SourceMap

/-- The spans of output are not empty, lie within the output so far, and follow each other; a copy is
as long as what it was copied from. -/
structure Trace.Consistent (trace : Trace) : Prop where
  nonempty : ∀ mapping ∈ trace.mappings, mapping.generated.start < mapping.generated.stop
  within : ∀ mapping ∈ trace.mappings, mapping.generated.stop ≤ trace.length
  ordered : trace.mappings.Pairwise fun first second =>
    first.generated.start < second.generated.start ∧
      first.generated.stop ≤ second.generated.start
  alike : ∀ mapping ∈ trace.mappings, mapping.relation = .copied →
    mapping.source.length = mapping.generated.length

namespace Trace

variable {trace : Trace} {mapping : Mapping} {piece : Piece} {pieces : List Piece}
  {offset source generated : Nat}

/-- A copy is as long as what it was copied from. -/
theorem length_of_mapping? (mapped : mapping? offset piece = some mapping)
    (copied : mapping.relation = .copied) : mapping.source.length = mapping.generated.length := by
  cases piece with
  | inserted text => cases mapped
  | copied start text =>
    obtain ⟨-, same⟩ := Option.ite_none_left_eq_some.mp mapped
    obtain rfl := Option.some.inj same
    simp only [Span.length, Nat.add_sub_cancel_left]
  | replaced span text =>
    obtain ⟨-, same⟩ := Option.ite_none_left_eq_some.mp mapped
    obtain rfl := Option.some.inj same
    cases copied

theorem length_foldl_record (trace : Trace) (pieces : List Piece) :
    (pieces.foldl record trace).length =
      trace.length + Text.bytes (pieces.flatMap Piece.text) := by
  induction pieces generalizing trace with
  | nil => rfl
  | cons piece rest ih =>
    rw [List.foldl_cons, ih, List.flatMap_cons, Text.bytes_append, ← Nat.add_assoc]
    rfl

theorem mem_mappingsFrom_append {front back : List Piece}
    (mapped : mapping? (offset + Text.bytes (front.flatMap Piece.text)) piece = some mapping) :
    mapping ∈ mappingsFrom offset (front ++ piece :: back) := by
  induction front generalizing offset with
  | nil => exact List.mem_append_left _ (Option.mem_toList.mpr mapped)
  | cons first front ih =>
    rw [List.flatMap_cons, Text.bytes_append, ← Nat.add_assoc] at mapped
    exact List.mem_append_right _ (ih mapped)

/-- The mappings are those of the pieces, each at the end of the output of those in front of it. -/
theorem mem_foldl_record_iff : mapping ∈ (pieces.foldl record start).mappings ↔
    ∃ front piece back, pieces = front ++ piece :: back ∧
      mapping? (Text.bytes (front.flatMap Piece.text)) piece = some mapping := by
  rw [foldl_record, start, List.nil_append]
  constructor
  · intro member
    obtain ⟨front, piece, back, split, mapped⟩ := exists_of_mem_mappingsFrom member
    exact ⟨front, piece, back, split, by rwa [Nat.zero_add] at mapped⟩
  · rintro ⟨front, piece, back, rfl, mapped⟩
    exact mem_mappingsFrom_append (by rwa [Nat.zero_add])

namespace Consistent

theorem of_start : start.Consistent where
  nonempty := by intro mapping member; cases member
  within := by intro mapping member; cases member
  ordered := List.Pairwise.nil
  alike := by intro mapping member; cases member

/-- Output without a mapping only moves the end. -/
theorem skip (consistent : trace.Consistent) (more : Nat) :
    Consistent ⟨trace.mappings, trace.length + more⟩ where
  nonempty := consistent.nonempty
  within mapping member := Nat.le_trans (consistent.within mapping member) (Nat.le_add_right _ _)
  ordered := consistent.ordered
  alike := consistent.alike

/-- A mapping that starts where the output ends goes behind all others. -/
theorem push (consistent : trace.Consistent) {more : Nat} (nonempty : 0 < more)
    (place : mapping.generated = ⟨trace.length, trace.length + more⟩)
    (alike : mapping.relation = .copied → mapping.source.length = mapping.generated.length) :
    Consistent ⟨trace.mappings ++ [mapping], trace.length + more⟩ where
  nonempty := by
    refine List.forall_mem_append.mpr ⟨consistent.nonempty, List.forall_mem_singleton.mpr ?_⟩
    rw [place]
    exact Nat.lt_add_of_pos_right nonempty
  within := by
    refine List.forall_mem_append.mpr
      ⟨(consistent.skip more).within, List.forall_mem_singleton.mpr ?_⟩
    rw [place]
  ordered := by
    refine List.pairwise_append.mpr
      ⟨consistent.ordered, List.pairwise_singleton _ _, fun old member new isNew => ?_⟩
    obtain rfl := List.mem_singleton.mp isNew
    have isNonempty := consistent.nonempty old member
    have inOutput := consistent.within old member
    rw [place]
    exact ⟨Nat.lt_of_lt_of_le isNonempty inOutput, inOutput⟩
  alike := List.forall_mem_append.mpr ⟨consistent.alike, List.forall_mem_singleton.mpr alike⟩

/-- **One piece.** Recording a piece keeps the mappings consistent. -/
theorem record (consistent : trace.Consistent) (piece : Piece) :
    (trace.record piece).Consistent := by
  unfold Trace.record
  cases mapped : mapping? trace.length piece with
  | none =>
    rw [Option.toList_none, List.append_nil]
    exact consistent.skip _
  | some mapping =>
    obtain ⟨nonempty, place, -⟩ := mapping?_eq_some mapped
    exact consistent.push (Text.bytes_pos nonempty) place (length_of_mapping? mapped)

/-- **All pieces.** Whatever is recorded, the mappings stay consistent. -/
theorem foldl_record (consistent : trace.Consistent) (pieces : List Piece) :
    (pieces.foldl Trace.record trace).Consistent := by
  induction pieces generalizing trace with
  | nil => exact consistent
  | cons piece rest ih => exact ih (consistent.record piece)

section Queries

variable (consistent : trace.Consistent)

include consistent

/-- The mappings around one that holds an output offset do not hold it. -/
theorem outside_of_split {front back : List Mapping}
    (split : trace.mappings = front ++ mapping :: back)
    (inside : mapping.generated.contains generated = true) :
    (∀ other ∈ front, other.generated.start ≤ generated ∧
        other.generated.contains generated = false) ∧
      ∀ other ∈ back, generated < other.generated.start := by
  have ordered := consistent.ordered
  rw [split] at ordered
  obtain ⟨-, fromMapping, across⟩ := List.pairwise_append.mp ordered
  rw [Span.contains_iff] at inside
  refine ⟨fun other member => ?_, fun other member => ?_⟩
  · have before := across other member mapping List.mem_cons_self
    rw [Bool.eq_false_iff, ne_eq, Span.contains_iff]
    omega
  · have behind := (List.pairwise_cons.mp fromMapping).1 other member
    omega

/-- At most one mapping holds an output offset. -/
theorem find?_of_contains (member : mapping ∈ trace.mappings)
    (inside : mapping.generated.contains generated = true) :
    trace.mappings.find? (·.generated.contains generated) = some mapping := by
  obtain ⟨front, back, split⟩ := List.append_of_mem member
  have passed : ∀ other ∈ front, ¬ other.generated.contains generated = true := fun other isOther =>
    Bool.eq_false_iff.mp ((consistent.outside_of_split split inside).1 other isOther).2
  rw [split, List.find?_append, List.find?_eq_none.mpr passed, Option.none_or]
  exact List.find?_cons_of_pos inside

/-- The mapping that holds an output offset is the last that starts at or before it. -/
theorem find?_eq (generated : Nat) :
    trace.mappings.find? (·.generated.contains generated) =
      (trace.mappings.takeWhile (·.generated.start ≤ generated)).getLast?.filter
        (·.generated.contains generated) := by
  cases found : trace.mappings.find? (·.generated.contains generated) with
  | some mapping =>
    have inside := List.find?_some found
    obtain ⟨front, back, split⟩ := List.append_of_mem (List.mem_of_find?_eq_some found)
    obtain ⟨reached, behind⟩ := consistent.outside_of_split split inside
    have stops : (mapping :: back).takeWhile (·.generated.start ≤ generated) = [mapping] := by
      rw [List.takeWhile_cons, if_pos (decide_eq_true (Span.contains_iff.mp inside).1)]
      cases back with
      | nil => rfl
      | cons next rest =>
        have beyond := Nat.not_le_of_lt (behind next List.mem_cons_self)
        rw [List.takeWhile_cons, if_neg (by rwa [decide_eq_true_eq])]
    rw [split, List.takeWhile_append_of_pos fun other member =>
        decide_eq_true (reached other member).1, stops, List.getLast?_concat, Option.filter_some,
      if_pos inside]
  | none =>
    refine (Option.filter_eq_none_iff.mpr fun last isLast => ?_).symm
    have member := (List.takeWhile_sublist _).subset (List.mem_of_getLast? isLast)
    exact List.find?_eq_none.mp found last member

/-- A copied byte is attributed to its place in what it was copied from. -/
theorem source?_of_copied (member : mapping ∈ trace.mappings) (copied : mapping.relation = .copied)
    (inside : mapping.generated.contains generated = true) :
    trace.table.source? generated =
      some (mapping.source.start + (generated - mapping.generated.start)) := by
  have found : trace.table.mappings.find? (·.generated.contains generated) = some mapping :=
    consistent.find?_of_contains member inside
  rw [Table.source?, found]
  simp only [Option.bind_eq_bind, Option.bind_some, copied, Option.pure_def]

/-- **There and back.** The first copy that is found of a source byte is attributed to it. -/
theorem source?_of_generated? (found : trace.table.generated? source = some generated) :
    trace.table.source? generated = some source := by
  obtain ⟨mapping, isFirst, place⟩ := Option.bind_eq_some_iff.mp found
  have holds := List.find?_some isFirst
  rw [Bool.and_eq_true, beq_iff_eq, Span.contains_iff] at holds
  obtain ⟨copied, inSource⟩ := holds
  have member : mapping ∈ trace.mappings := List.mem_of_find?_eq_some isFirst
  have alike := consistent.alike mapping member copied
  obtain rfl := Option.some.inj place
  unfold Span.length at alike
  rw [consistent.source?_of_copied member copied (Span.contains_iff.mpr (by omega))]
  exact congrArg some (by omega)

/-- **Back and there.** A copied byte is attributed to a source byte of which a copy is found. -/
theorem exists_source?_of_copied (member : mapping ∈ trace.mappings)
    (copied : mapping.relation = .copied)
    (inside : mapping.generated.contains generated = true) :
    ∃ source, trace.table.source? generated = some source ∧
      (trace.table.generated? source).isSome = true := by
  refine ⟨_, consistent.source?_of_copied member copied inside, ?_⟩
  have alike := consistent.alike mapping member copied
  rw [Span.contains_iff] at inside
  have found : (trace.mappings.find? fun mapping' => mapping'.relation == .copied &&
      mapping'.source.contains
        (mapping.source.start + (generated - mapping.generated.start))).isSome = true := by
    refine List.find?_isSome.mpr ⟨mapping, member, ?_⟩
    unfold Span.length at alike
    rw [Bool.and_eq_true, beq_iff_eq, Span.contains_iff]
    exact ⟨copied, by omega⟩
  obtain ⟨first, isFirst⟩ := Option.isSome_iff_exists.mp found
  exact Option.isSome_iff_exists.mpr ⟨_, Option.bind_eq_some_iff.mpr ⟨first, isFirst, rfl⟩⟩

end Queries

end Consistent

/-- **Every history.** Whatever pieces are recorded, the table has a mapping for each that has output
and a source, these mappings are consistent, and the two queries lead back to where they started. -/
theorem queries_foldl_record (pieces : List Piece) :
    let trace := pieces.foldl record start
    let table := trace.table
    trace.length = Text.bytes (pieces.flatMap Piece.text) ∧
    (∀ mapping, mapping ∈ table.mappings ↔ ∃ front piece back, pieces = front ++ piece :: back ∧
      mapping? (Text.bytes (front.flatMap Piece.text)) piece = some mapping) ∧
    trace.Consistent ∧
    (∀ generated, table.mappings.find? (·.generated.contains generated) =
      (table.mappings.takeWhile (·.generated.start ≤ generated)).getLast?.filter
        (·.generated.contains generated)) ∧
    (∀ source generated, table.generated? source = some generated →
      table.source? generated = some source) ∧
    ∀ mapping ∈ table.mappings, mapping.relation = .copied →
      ∀ generated, mapping.generated.contains generated = true →
        ∃ source, table.source? generated = some source ∧
          (table.generated? source).isSome = true := by
  intro trace table
  have consistent : trace.Consistent := Consistent.of_start.foldl_record pieces
  refine ⟨?_, fun mapping => mem_foldl_record_iff, consistent, consistent.find?_eq,
    fun source generated => consistent.source?_of_generated?,
    fun mapping member copied generated => consistent.exists_source?_of_copied member copied⟩
  exact (length_foldl_record start pieces).trans (Nat.zero_add _)

/-- Two copies of what overlaps, with an insertion and a deletion between them. -/
theorem queries_foldl_record_overlap :
    let pieces : List Piece :=
      [.copied 0 ['a', 'é'], .inserted ['+'], .replaced ⟨0, 3⟩ [], .copied 1 ['é', 'b']]
    let table := (pieces.foldl record start).table
    let second : Mapping := ⟨.copied, ⟨4, 7⟩, ⟨1, 4⟩⟩
    table.generated? 2 = some 2 ∧ table.source? 2 = some 2 ∧ second ∈ table.mappings ∧
      second.relation = .copied ∧ second.generated.contains 5 = true ∧
      ∃ source, table.source? 5 = some source ∧ (table.generated? source).isSome = true := by
  intro pieces table second
  obtain ⟨-, -, -, -, back, there⟩ := queries_foldl_record pieces
  have found : table.generated? 2 = some 2 := by decide
  have member : second ∈ table.mappings := by decide
  have inside : second.generated.contains 5 = true := by decide
  exact ⟨found, back 2 2 found, member, rfl, inside, there second member rfl 5 inside⟩

end Trace

end SourceMap

end ClassHoist
