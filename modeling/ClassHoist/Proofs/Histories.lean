import ClassHoist.Proofs.Splice

/-! # Edits asked for one after the other

Edits are asked for in any order, and a refused one leaves the patch as it was
(`Patch.attempt_refused`). Whatever is asked for, the patch records exactly the accepted edits
(`Patch.records_ofEdits`).
-/

namespace ClassHoist

/-- An edit that is asked for: to replace a range of the source, to insert text before the source
character at an offset, or to add text after the end of the source. -/
inductive Edit where
  | overwrite (start stop : Nat) (text : Text)
  | insert (offset : Nat) (text : Text)
  | append (text : Text)
  deriving DecidableEq, Repr

namespace Edit

/-- The range that an edit overwrites. -/
def range? : Edit → Option Overwrite
  | overwrite start stop text => some ⟨start, stop, text⟩
  | _ => none

/-- The edit inserts text, wherever it is. -/
def isInsertion : Edit → Bool
  | insert .. => true
  | _ => false

/-- The edit inserts text at an offset. -/
def insertsAt (offset : Nat) : Edit → Bool
  | insert place _ => place == offset
  | _ => false

/-- The text that an edit inserts. -/
def insertion : Edit → Text
  | insert _ text => text
  | _ => []

/-- The text that an edit appends. -/
def appended : Edit → Text
  | append text => text
  | _ => []

end Edit

namespace Patch

/-- Ask for an edit: what it answers, and the patch that it leaves. Appending is never refused. -/
def attempt (patch : Patch) : Edit → Except EditError Unit × Patch
  | .overwrite start stop text => patch.overwrite start stop text
  | .insert offset text => patch.insert offset text
  | .append text => (.ok (), patch.append text)

/-- The patch after edits of a source are asked for one after the other. -/
def ofEdits (source : Text) (edits : List Edit) : Patch :=
  edits.foldl (fun patch edit => (patch.attempt edit).2) (ofSource source)

/-- The edits that are accepted when they are asked for one after the other. -/
def accepted (patch : Patch) : List Edit → List Edit
  | [] => []
  | edit :: rest =>
    match patch.attempt edit with
    | (.ok (), next) => edit :: next.accepted rest
    | (.error _, left) => left.accepted rest

/-- The text that edits insert at an offset, in their order. -/
def insertedBy (edits : List Edit) (offset : Nat) : Text :=
  (edits.filter (·.insertsAt offset)).flatMap Edit.insertion

/-- What a patch records of the edits accepted so far. -/
structure Records (patch : Patch) (source : Text) (edits : List Edit) : Prop where
  sound : patch.Sound
  source : patch.source = source
  ranges : ∀ range, range ∈ patch.overwrites ↔ range ∈ edits.filterMap Edit.range?
  inserted : ∀ offset, insertedAt patch.insertions offset = insertedBy edits offset
  offsets : ∀ offset, offset ∈ patch.insertions.map Insertion.offset ↔
    ∃ edit ∈ edits, edit.insertsAt offset = true
  appended : patch.appended = edits.flatMap Edit.appended

section Records

variable {patch next : Patch} {source : Text} {edits : List Edit}

/-- New text comes after what is already inserted at its offset. -/
theorem insertedAt_insertInsertion {entries : List Insertion} (new : Insertion) (offset : Nat)
    (ordered : entries.Pairwise fun first second => first.offset < second.offset) :
    insertedAt (insertInsertion new entries) offset =
      insertedAt entries offset ++ if new.offset = offset then new.text else [] := by
  induction entries with
  | nil =>
    rw [insertInsertion, insertedAt_cons]
    exact List.append_nil _
  | cons old rest ih =>
    obtain ⟨behind, orderedRest⟩ := List.pairwise_cons.mp ordered
    have noneBehind (same : old.offset = offset) : insertedAt rest offset = [] :=
      insertedAt_eq_nil fun entry member => by
        have later := behind entry member
        omega
    unfold insertInsertion
    by_cases before : new.offset < old.offset
    · rw [if_pos before, insertedAt_cons]
      by_cases here : new.offset = offset
      · have noneAfter : insertedAt (old :: rest) offset = [] := by
          refine insertedAt_eq_nil fun entry member => ?_
          rcases List.mem_cons.mp member with rfl | later
          · omega
          · have further := behind entry later
            omega
        rw [if_pos here, noneAfter, List.append_nil]
        rfl
      · rw [if_neg here, List.append_nil]
        rfl
    · rw [if_neg before]
      by_cases same : new.offset = old.offset
      · rw [if_pos same, insertedAt_cons, insertedAt_cons, same]
        by_cases here : old.offset = offset
        · rw [if_pos here, if_pos here, if_pos here, noneBehind here, List.append_nil,
            List.append_nil]
        · rw [if_neg here, if_neg here, if_neg here, List.append_nil]
      · rw [if_neg same, insertedAt_cons, insertedAt_cons, ih orderedRest, List.append_assoc]

/-- Insertions stand where they stood, and where the new one is put. -/
theorem mem_offsets_insertInsertion {new : Insertion} {entries : List Insertion} {offset : Nat} :
    offset ∈ (insertInsertion new entries).map Insertion.offset ↔
      offset ∈ entries.map Insertion.offset ∨ new.offset = offset := by
  induction entries with
  | nil =>
    rw [insertInsertion, List.map_singleton, List.mem_singleton, eq_comm]
    exact (or_iff_right List.not_mem_nil).symm
  | cons old rest ih =>
    unfold insertInsertion
    split
    · rw [List.map_cons, List.mem_cons, or_comm, eq_comm]
    · split
      case isTrue same =>
        rw [List.map_cons, List.map_cons, same, List.mem_cons]
        exact (or_iff_left_of_imp fun here => .inl here.symm).symm
      case isFalse =>
        rw [List.map_cons, List.map_cons, List.mem_cons, List.mem_cons, ih, or_assoc]

/-- What two histories insert at an offset is what the first inserts there, then the second. -/
theorem insertedBy_append (first second : List Edit) (offset : Nat) :
    insertedBy (first ++ second) offset = insertedBy first offset ++ insertedBy second offset := by
  rw [insertedBy, List.filter_append, List.flatMap_append]
  rfl

/-- Without edits a patch has nothing recorded. -/
theorem records_ofSource (source : Text) : (ofSource source).Records source [] where
  sound := ofSource_sound source
  source := rfl
  ranges _ := Iff.rfl
  inserted _ := rfl
  offsets _ := iff_of_false List.not_mem_nil nofun
  appended := rfl

/-- Text is inserted between characters. -/
theorem Records.placed (records : patch.Records source edits) :
    ∀ edit ∈ edits, ∀ offset, edit.insertsAt offset = true →
      Text.isBoundary patch.source offset = true := by
  intro edit member offset inserts
  obtain ⟨entry, isEntry, rfl⟩ :=
    List.mem_map.mp ((records.offsets offset).mpr ⟨edit, member, inserts⟩)
  exact records.sound.placed entry isEntry

/-- **One refused edit.** It leaves the patch as it was. -/
theorem attempt_refused {edit : Edit} {refusal : EditError} {left : Patch}
    (refused : patch.attempt edit = (.error refusal, left)) : left = patch := by
  cases edit with
  | overwrite => exact overwrite_refused refused
  | insert => exact insert_refused refused
  | append => cases refused

/-- **One accepted edit.** It is recorded behind those before it. -/
theorem Records.attempt (records : patch.Records source edits) {edit : Edit}
    (accepted : patch.attempt edit = (.ok (), next)) : next.Records source (edits ++ [edit]) := by
  have inserted (offset : Nat) := insertedBy_append edits [edit] offset
  have appended : (edits ++ [edit]).flatMap Edit.appended =
      patch.appended ++ edit.appended := by
    rw [List.flatMap_append, records.appended, List.flatMap_singleton]
  have ranges (range : Overwrite) : range ∈ (edits ++ [edit]).filterMap Edit.range? ↔
      range ∈ patch.overwrites ∨ edit.range? = some range := by
    rw [List.filterMap_append, List.mem_append, records.ranges]
    cases edit <;> simp [Edit.range?, eq_comm]
  have offsets (offset : Nat) : (∃ other ∈ edits ++ [edit], other.insertsAt offset = true) ↔
      offset ∈ patch.insertions.map Insertion.offset ∨ edit.insertsAt offset = true := by
    rw [records.offsets]
    simp only [List.mem_append, List.mem_singleton, or_and_right, exists_or, exists_eq_left]
  -- An edit adds to the ranges, to the insertions or to the end, and leaves the other two alone.
  cases edit with
  | overwrite start stop text =>
    obtain ⟨can, rfl⟩ := records.sound.overwrite_eq_ok_iff.mp accepted
    refine ⟨records.sound.overwrite can, records.source, ?_, ?_, ?_, ?_⟩
    · intro range
      rw [mem_insertOverwrite, ranges, Edit.range?, Option.some.injEq, or_comm, eq_comm]
    · intro offset
      rw [inserted, ← records.inserted]
      exact (List.append_nil _).symm
    · intro offset
      rw [offsets]
      exact (or_iff_left nofun).symm
    · rw [appended]
      exact (List.append_nil _).symm
  | insert place text =>
    obtain ⟨can, rfl⟩ := records.sound.insert_eq_ok_iff.mp accepted
    refine ⟨records.sound.insert can, records.source, ?_, ?_, ?_, ?_⟩
    · intro range
      rw [ranges]
      simp only [Edit.range?, reduceCtorEq, or_false]
    · intro offset
      rw [inserted, insertedAt_insertInsertion _ _ records.sound.ordered, records.inserted]
      by_cases here : place = offset
      · simp [insertedBy, Edit.insertsAt, Edit.insertion, here]
      · simp [insertedBy, Edit.insertsAt, here]
    · intro offset
      rw [offsets, mem_offsets_insertInsertion, Edit.insertsAt, beq_iff_eq]
    · rw [appended]
      exact (List.append_nil _).symm
  | append text =>
    obtain rfl := congrArg Prod.snd accepted
    refine ⟨append_sound records.sound text, records.source, ?_, ?_, ?_, ?_⟩
    · intro range
      rw [ranges]
      simp only [Edit.range?, reduceCtorEq, or_false]
      rfl
    · intro offset
      rw [inserted, ← records.inserted]
      exact (List.append_nil _).symm
    · intro offset
      rw [offsets]
      exact (or_iff_left nofun).symm
    · exact appended.symm

/-- **All edits.** After edits are asked for, the accepted ones are recorded. -/
theorem Records.foldl_attempt (records : patch.Records source edits) (asked : List Edit) :
    (asked.foldl (fun patch edit => (patch.attempt edit).2) patch).Records source
      (edits ++ patch.accepted asked) := by
  induction asked generalizing patch edits with
  | nil => rwa [accepted, List.append_nil]
  | cons edit rest ih =>
    rw [List.foldl_cons, accepted]
    cases outcome : patch.attempt edit with
    | mk answer left =>
      cases answer with
      | error refusal =>
        obtain rfl : left = patch := attempt_refused outcome
        exact ih records
      | ok done =>
        simp only
        rw [List.append_cons]
        exact ih (records.attempt outcome)

/-- A patch has recorded the edits that were accepted. -/
theorem records_ofEdits (source : Text) (asked : List Edit) :
    (ofEdits source asked).Records source ((ofSource source).accepted asked) :=
  (records_ofSource source).foldl_attempt asked

end Records

end Patch

end ClassHoist
