import ClassHoist.Patch
import ClassHoist.Proofs.ByteOffsets

/-! # Edits that fit together

The overwritten ranges of a patch lie apart, and no insertion lies strictly inside one of them
(`Patch.Sound`). Under this invariant the checks of an edit, which look at one overwritten range
only, refuse it exactly when it is in conflict with any of them.
-/

namespace ClassHoist

namespace Patch

/-- The edits of a patch fit together. -/
structure Sound (patch : Patch) : Prop where
  nonempty : ∀ edit ∈ patch.overwrites, edit.start < edit.stop
  bounded : ∀ edit ∈ patch.overwrites, Text.isBoundary patch.source edit.start = true ∧
    Text.isBoundary patch.source edit.stop = true
  apart : patch.overwrites.Pairwise fun first second => first.stop ≤ second.start
  placed : ∀ entry ∈ patch.insertions, Text.isBoundary patch.source entry.offset = true
  ordered : patch.insertions.Pairwise fun first second => first.offset < second.offset
  outside : ∀ entry ∈ patch.insertions, ∀ edit ∈ patch.overwrites,
    entry.offset ≤ edit.start ∨ edit.stop ≤ entry.offset

/-- A range can be overwritten: it is not empty, lies between boundaries of the source, shares no
byte with an overwritten range and has no insertion strictly inside it. -/
structure CanOverwrite (patch : Patch) (start stop : Nat) : Prop where
  nonempty : start < stop
  bounded : Text.isBoundary patch.source start = true ∧ Text.isBoundary patch.source stop = true
  apart : ∀ edit ∈ patch.overwrites, edit.stop ≤ start ∨ stop ≤ edit.start
  outside : ∀ entry ∈ patch.insertions, entry.offset ≤ start ∨ stop ≤ entry.offset

/-- Text can be inserted: the offset is a boundary of the source and not strictly inside an
overwritten range. -/
structure CanInsert (patch : Patch) (offset : Nat) : Prop where
  bounded : Text.isBoundary patch.source offset = true
  outside : ∀ edit ∈ patch.overwrites, offset ≤ edit.start ∨ edit.stop ≤ offset

/-- Without edits, nothing is in conflict. -/
theorem ofSource_sound (source : Text) : (ofSource source).Sound where
  nonempty := by intro edit member; cases member
  bounded := by intro edit member; cases member
  apart := List.Pairwise.nil
  placed := by intro entry member; cases member
  ordered := List.Pairwise.nil
  outside := by intro entry member; cases member

/-- Appended text is in conflict with nothing. -/
theorem append_sound {patch : Patch} (sound : patch.Sound) (text : Text) :
    (patch.append text).Sound :=
  ⟨sound.nonempty, sound.bounded, sound.apart, sound.placed, sound.ordered, sound.outside⟩

/-- The range check accepts what lies in order between boundaries. -/
theorem checkRange_eq_ok_iff {patch : Patch} {start stop : Nat} :
    patch.checkRange start stop = .ok () ↔ start ≤ stop ∧
      Text.isBoundary patch.source start = true ∧ Text.isBoundary patch.source stop = true := by
  unfold checkRange
  simp only
  split
  case isTrue outOfBounds =>
    simp only [Bool.or_eq_true, decide_eq_true_eq] at outOfBounds
    constructor
    · intro impossible
      cases impossible
    · rintro ⟨ordered, -, last⟩
      have fits := Text.bytes_le_of_isBoundary last
      omega
  case isFalse inBounds =>
    simp only [Bool.or_eq_true, decide_eq_true_eq, not_or] at inBounds
    have ordered : start ≤ stop := by omega
    split
    case isTrue inside =>
      rw [Bool.not_eq_true'] at inside
      simp only [inside, Bool.false_eq_true, false_and, and_false, iff_false]
      intro impossible
      cases impossible
    case isFalse first =>
      rw [Bool.not_eq_true', Bool.not_eq_false] at first
      split
      case isTrue inside =>
        rw [Bool.not_eq_true'] at inside
        simp only [inside, Bool.false_eq_true, and_false, iff_false]
        intro impossible
        cases impossible
      case isFalse last =>
        rw [Bool.not_eq_true', Bool.not_eq_false] at last
        simp only [ordered, first, last, and_self]

section Ordered

variable {edits : List Overwrite}

/-- In ranges that lie apart, those that start before an offset come first. -/
theorem mem_takeWhile_start (nonempty : ∀ edit ∈ edits, edit.start < edit.stop)
    (apart : edits.Pairwise fun first second => first.stop ≤ second.start) {edit : Overwrite}
    {offset : Nat} (member : edit ∈ edits) (before : edit.start < offset) :
    edit ∈ edits.takeWhile (·.start < offset) := by
  induction edits with
  | nil => cases member
  | cons first rest ih =>
    obtain ⟨fromFirst, apartRest⟩ := List.pairwise_cons.mp apart
    have firstNonempty := nonempty first List.mem_cons_self
    rcases List.mem_cons.mp member with rfl | later
    · simp only [List.takeWhile_cons, before, decide_true, ↓reduceIte]
      exact List.mem_cons_self
    · have firstBefore : first.start < offset := by
        have behind := fromFirst edit later
        omega
      simp only [List.takeWhile_cons, firstBefore, decide_true, ↓reduceIte]
      refine List.mem_cons_of_mem _ (ih ?_ apartRest later)
      exact fun other inRest => nonempty other (List.mem_cons_of_mem _ inRest)

/-- In ranges that lie apart, the last one ends last. -/
theorem stop_le_of_getLast?
    (nonempty : ∀ edit ∈ edits, edit.start < edit.stop)
    (apart : edits.Pairwise fun first second => first.stop ≤ second.start)
    {edit last : Overwrite} (member : edit ∈ edits) (isLast : edits.getLast? = some last) :
    edit.stop ≤ last.stop := by
  obtain ⟨front, rfl⟩ := List.getLast?_eq_some_iff.mp isLast
  obtain ⟨-, -, across⟩ := List.pairwise_append.mp apart
  rcases List.mem_append.mp member with inFront | isIt
  · have behind := across edit inFront last List.mem_cons_self
    have lastNonempty := nonempty last (List.mem_append_right _ List.mem_cons_self)
    omega
  · exact Nat.le_of_eq (congrArg Overwrite.stop (List.mem_singleton.mp isIt))

/-- A range that is put among others is one of them then. -/
theorem mem_insertOverwrite {new edit : Overwrite} :
    edit ∈ insertOverwrite new edits ↔ edit = new ∨ edit ∈ edits := by
  induction edits with
  | nil => exact List.mem_cons
  | cons old rest ih =>
    unfold insertOverwrite
    split
    · exact List.mem_cons
    · rw [List.mem_cons, ih, List.mem_cons]
      exact or_left_comm

/-- A range that lies apart from others is put where it belongs. -/
theorem insertOverwrite_apart {new : Overwrite} (newNonempty : new.start < new.stop)
    (nonempty : ∀ edit ∈ edits, edit.start < edit.stop)
    (apart : edits.Pairwise fun first second => first.stop ≤ second.start)
    (free : ∀ edit ∈ edits, edit.stop ≤ new.start ∨ new.stop ≤ edit.start) :
    (insertOverwrite new edits).Pairwise fun first second => first.stop ≤ second.start := by
  induction edits with
  | nil => exact List.pairwise_singleton _ _
  | cons old rest ih =>
    obtain ⟨fromOld, apartRest⟩ := List.pairwise_cons.mp apart
    have oldNonempty := nonempty old List.mem_cons_self
    have oldFree := free old List.mem_cons_self
    unfold insertOverwrite
    split
    case isTrue before =>
      refine List.pairwise_cons.mpr ⟨?_, apart⟩
      intro edit member
      rcases List.mem_cons.mp member with rfl | later
      · omega
      · have behind := fromOld edit later
        omega
    case isFalse notBefore =>
      refine List.pairwise_cons.mpr ⟨?_, ih ?_ apartRest ?_⟩
      · intro edit member
        rcases mem_insertOverwrite.mp member with rfl | later
        · omega
        · exact fromOld edit later
      · exact fun edit member => nonempty edit (List.mem_cons_of_mem _ member)
      · exact fun edit member => free edit (List.mem_cons_of_mem _ member)

end Ordered

section Placed

variable {entries : List Insertion}

/-- An insertion stands where it is put or where one stood before. -/
theorem offset_of_mem_insertInsertion {new entry : Insertion}
    (member : entry ∈ insertInsertion new entries) :
    entry.offset = new.offset ∨ ∃ old ∈ entries, entry.offset = old.offset := by
  induction entries with
  | nil => exact .inl (List.mem_singleton.mp member ▸ rfl)
  | cons old rest ih =>
    unfold insertInsertion at member
    split at member
    · rcases List.mem_cons.mp member with rfl | later
      · exact .inl rfl
      · exact .inr ⟨entry, later, rfl⟩
    · split at member
      case isTrue same =>
        rcases List.mem_cons.mp member with rfl | later
        · exact .inl same.symm
        · exact .inr ⟨entry, List.mem_cons_of_mem _ later, rfl⟩
      case isFalse other =>
        rcases List.mem_cons.mp member with rfl | later
        · exact .inr ⟨entry, List.mem_cons_self, rfl⟩
        · rcases ih later with isNew | ⟨old', inRest, same⟩
          · exact .inl isNew
          · exact .inr ⟨old', List.mem_cons_of_mem _ inRest, same⟩

/-- Insertions stay in order, each at a place of its own. -/
theorem insertInsertion_ordered (new : Insertion)
    (ordered : entries.Pairwise fun first second => first.offset < second.offset) :
    (insertInsertion new entries).Pairwise fun first second => first.offset < second.offset := by
  induction entries with
  | nil => exact List.pairwise_singleton _ _
  | cons old rest ih =>
    obtain ⟨fromOld, orderedRest⟩ := List.pairwise_cons.mp ordered
    unfold insertInsertion
    split
    case isTrue before =>
      refine List.pairwise_cons.mpr ⟨?_, ordered⟩
      intro entry member
      rcases List.mem_cons.mp member with rfl | later
      · exact before
      · exact Nat.lt_trans before (fromOld entry later)
    case isFalse notBefore =>
      split
      case isTrue same => exact List.pairwise_cons.mpr ⟨fromOld, orderedRest⟩
      case isFalse other =>
        refine List.pairwise_cons.mpr ⟨?_, ih orderedRest⟩
        intro entry member
        rcases offset_of_mem_insertInsertion member with isNew | ⟨old', inRest, same⟩
        · omega
        · rw [same]
          exact fromOld old' inRest

end Placed

variable {patch : Patch} {start stop offset : Nat} {text : Text}

/-- The overwritten range that the checks look at ends after any other that starts before the
offset. -/
theorem Sound.stop_le_of_lastBefore? (sound : patch.Sound) {last edit : Overwrite}
    (isLast : patch.lastBefore? offset = some last) (member : edit ∈ patch.overwrites)
    (before : edit.start < offset) : edit.stop ≤ last.stop := by
  have sublist := List.takeWhile_sublist (l := patch.overwrites) fun edit => edit.start < offset
  refine stop_le_of_getLast? ?_ (sound.apart.sublist sublist)
    (mem_takeWhile_start sound.nonempty sound.apart member before) isLast
  exact fun other inFront => sound.nonempty other (sublist.subset inFront)

/-- The last range in front of an offset is a range in front of it. -/
theorem mem_of_lastBefore? {last : Overwrite} (isLast : patch.lastBefore? offset = some last) :
    last ∈ patch.overwrites ∧ last.start < offset := by
  have member := List.mem_of_getLast? isLast
  refine ⟨(List.takeWhile_sublist _).subset member, ?_⟩
  exact of_decide_eq_true (List.all_eq_true.mp List.all_takeWhile last member)

/-- If no range starts in front of an offset, all start there or behind it. -/
theorem Sound.le_start_of_lastBefore?_eq_none (sound : patch.Sound)
    (none : patch.lastBefore? offset = none) {edit : Overwrite}
    (member : edit ∈ patch.overwrites) : offset ≤ edit.start := by
  refine Nat.le_of_not_lt fun before => ?_
  have inFront := mem_takeWhile_start sound.nonempty sound.apart member before
  rw [List.getLast?_eq_none_iff.mp none] at inFront
  cases inFront

/-- Looking at the last overwritten range that starts before the end of a range is enough to see
that the range lies apart from all of them. -/
theorem Sound.apart_iff_lastBefore? (sound : patch.Sound) :
    (∀ edit ∈ patch.overwrites, edit.stop ≤ start ∨ stop ≤ edit.start) ↔
      ∀ last ∈ patch.lastBefore? stop, ¬ start < last.stop := by
  constructor
  · intro apart last isLast
    obtain ⟨member, before⟩ := mem_of_lastBefore? isLast
    have lies := apart last member
    omega
  · intro free edit member
    by_cases before : edit.start < stop
    · cases isLast : patch.lastBefore? stop with
      | none => exact .inr (sound.le_start_of_lastBefore?_eq_none isLast member)
      | some last =>
        have ends := sound.stop_le_of_lastBefore? isLast member before
        have fits := free last isLast
        omega
    · omega

variable {refusal : EditError} {next left : Patch}

section Requests

variable {rest : Unit → ExceptT EditError (StateM Patch) Unit}

/-- A check that is passed changes nothing about what follows. -/
@[simp]
theorem perform_check_ok (done : Unit) :
    patch.perform (liftM (Except.ok done : Except EditError Unit) >>= rest) =
      patch.perform (rest done) := rfl

/-- A check that fails ends the request, and the patch is as it was. -/
@[simp]
theorem perform_check_error :
    patch.perform (liftM (Except.error refusal : Except EditError Unit) >>= rest) =
      (.error refusal, patch) := rfl

/-- A refusal ends the request, and the patch is as it was. -/
@[simp]
theorem perform_throw : patch.perform (throw refusal >>= rest) = (.error refusal, patch) := rfl

/-- A change that is carried out is the patch afterwards. -/
@[simp]
theorem perform_modify (change : Patch → Patch) :
    patch.perform (modify change) = (.ok (), change patch) := rfl

end Requests

/-- What a request leaves is known where it was carried out, and only there. -/
theorem unlessRefused_eq_ok_iff {outcome : Except EditError Unit × Patch} :
    unlessRefused outcome = .ok next ↔ outcome = (.ok (), next) := by
  obtain ⟨answer, left⟩ := outcome
  cases answer with
  | error refusal => simp only [unlessRefused, reduceCtorEq, Prod.mk.injEq, false_and]
  | ok done => simp only [unlessRefused, Except.ok.injEq, Prod.mk.injEq, true_and]

/-- What a request to overwrite a range comes to. A check that fails refuses it and leaves the patch
alone; only behind all of the checks is the range put among the others. -/
inductive OverwriteOutcome (patch : Patch) (start stop : Nat) (text : Text) :
    Except EditError Unit × Patch → Prop
  | outside {refusal : EditError} (checked : patch.checkRange start stop = .error refusal) :
      OverwriteOutcome patch start stop text (.error refusal, patch)
  | empty (checked : patch.checkRange start stop = .ok ()) (same : start = stop) :
      OverwriteOutcome patch start stop text (.error (.emptyRange start), patch)
  | overlap {last : Overwrite} (checked : patch.checkRange start stop = .ok ())
      (nonempty : start ≠ stop) (isLast : patch.lastBefore? stop = some last)
      (shares : start < last.stop) :
      OverwriteOutcome patch start stop text (.error (.overlap start stop last.start last.stop), patch)
  | around {inner : Insertion}
      (found : (patch.insertions.find? fun i => start < i.offset && i.offset < stop) = some inner) :
      OverwriteOutcome patch start stop text
        (.error (.insideOverwrite inner.offset start stop), patch)
  | done (checked : patch.checkRange start stop = .ok ()) (nonempty : start ≠ stop)
      (free : ∀ last ∈ patch.lastBefore? stop, ¬ start < last.stop)
      (noneInside : (patch.insertions.find? fun i => start < i.offset && i.offset < stop) = none) :
      OverwriteOutcome patch start stop text
        (.ok (), { patch with overwrites := insertOverwrite ⟨start, stop, text⟩ patch.overwrites })

/-- What a request to insert text comes to: refused by a check, with the patch left alone, or carried
out. -/
inductive InsertOutcome (patch : Patch) (offset : Nat) (text : Text) :
    Except EditError Unit × Patch → Prop
  | outside {refusal : EditError} (checked : patch.checkRange offset offset = .error refusal) :
      InsertOutcome patch offset text (.error refusal, patch)
  | inside {last : Overwrite} (isLast : patch.lastBefore? offset = some last)
      (inside : offset < last.stop) :
      InsertOutcome patch offset text
        (.error (.insideOverwrite offset last.start last.stop), patch)
  | done (checked : patch.checkRange offset offset = .ok ())
      (free : ∀ last ∈ patch.lastBefore? offset, ¬ offset < last.stop) :
      InsertOutcome patch offset text
        (.ok (), { patch with insertions := insertInsertion ⟨offset, text⟩ patch.insertions })

/-- Every request to overwrite a range comes to one of these. -/
theorem overwrite_outcome (patch : Patch) (start stop : Nat) (text : Text) :
    patch.OverwriteOutcome start stop text (patch.overwrite start stop text) := by
  unfold overwrite
  cases checked : patch.checkRange start stop with
  | error refusal => exact .outside checked
  | ok done =>
    rw [perform_check_ok]
    by_cases empty : start = stop
    · simp only [if_pos empty, perform_throw]
      exact .empty checked empty
    simp only [if_neg empty]
    cases isLast : patch.lastBefore? stop with
    | none =>
      cases found : patch.insertions.find? fun i => start < i.offset && i.offset < stop with
      | none => exact .done checked empty (by simp [isLast]) found
      | some inner => exact .around found
    | some last =>
      by_cases shares : start < last.stop
      · simp only [if_pos shares, perform_throw]
        exact .overlap checked empty isLast shares
      · simp only [if_neg shares]
        -- The last range in front lets the request pass, and again an insertion can be in the way.
        cases found : patch.insertions.find? fun i => start < i.offset && i.offset < stop with
        | none => exact .done checked empty (by simpa [isLast] using shares) found
        | some inner => exact .around found

/-- Every request to insert text comes to one of these. -/
theorem insert_outcome (patch : Patch) (offset : Nat) (text : Text) :
    patch.InsertOutcome offset text (patch.insert offset text) := by
  unfold insert
  cases checked : patch.checkRange offset offset with
  | error refusal => exact .outside checked
  | ok done =>
    rw [perform_check_ok]
    cases isLast : patch.lastBefore? offset with
    | none => exact .done checked (by simp [isLast])
    | some last =>
      by_cases inside : offset < last.stop
      · simp only [if_pos inside, perform_throw]
        exact .inside isLast inside
      · simp only [if_neg inside]
        exact .done checked (by simpa [isLast] using inside)

/-- **A refused range.** A refusal to overwrite leaves the patch as it was. -/
theorem overwrite_refused (refused : patch.overwrite start stop text = (.error refusal, left)) :
    left = patch := by
  have outcome := patch.overwrite_outcome start stop text
  rw [refused] at outcome
  cases outcome with
  | outside | empty | overlap | around => rfl

/-- **A refused insertion.** A refusal to insert leaves the patch as it was. -/
theorem insert_refused (refused : patch.insert offset text = (.error refusal, left)) :
    left = patch := by
  have outcome := patch.insert_outcome offset text
  rw [refused] at outcome
  cases outcome with
  | outside | inside => rfl

/-- A range is overwritten exactly if all checks pass. -/
theorem overwrite_eq_ok_iff_checks :
    patch.overwrite start stop text = (.ok (), next) ↔ patch.checkRange start stop = .ok () ∧
      start ≠ stop ∧ (∀ last ∈ patch.lastBefore? stop, ¬ start < last.stop) ∧
        (patch.insertions.find? fun i => start < i.offset && i.offset < stop) = none ∧
          next = { patch with
            overwrites := insertOverwrite ⟨start, stop, text⟩ patch.overwrites } := by
  have outcome := patch.overwrite_outcome start stop text
  constructor
  · intro accepted
    rw [accepted] at outcome
    cases outcome with
    | done checked nonempty free noneInside => exact ⟨checked, nonempty, free, noneInside, rfl⟩
  · rintro ⟨checked, nonempty, free, noneInside, rfl⟩
    generalize patch.overwrite start stop text = result at outcome
    cases outcome with
    | outside refused => cases checked.symm.trans refused
    | empty _ same => exact absurd same nonempty
    | overlap _ _ isLast shares => exact absurd shares (free _ isLast)
    | around found => cases noneInside.symm.trans found
    | done => rfl

/-- Text is inserted exactly if all checks pass. -/
theorem insert_eq_ok_iff_checks :
    patch.insert offset text = (.ok (), next) ↔ patch.checkRange offset offset = .ok () ∧
      (∀ last ∈ patch.lastBefore? offset, ¬ offset < last.stop) ∧
        next = { patch with insertions := insertInsertion ⟨offset, text⟩ patch.insertions } := by
  have outcome := patch.insert_outcome offset text
  constructor
  · intro accepted
    rw [accepted] at outcome
    cases outcome with
    | done checked free => exact ⟨checked, free, rfl⟩
  · rintro ⟨checked, free, rfl⟩
    generalize patch.insert offset text = result at outcome
    cases outcome with
    | outside refused => cases checked.symm.trans refused
    | inside isLast inside => exact absurd inside (free _ isLast)
    | done => rfl

/-- **Overwriting.** A range is overwritten exactly if it can be. -/
theorem Sound.overwrite_eq_ok_iff (sound : patch.Sound) :
    patch.overwrite start stop text = (.ok (), next) ↔ patch.CanOverwrite start stop ∧
      next = { patch with overwrites := insertOverwrite ⟨start, stop, text⟩ patch.overwrites } := by
  rw [overwrite_eq_ok_iff_checks, checkRange_eq_ok_iff, ← sound.apart_iff_lastBefore?,
    List.find?_eq_none]
  constructor
  · rintro ⟨⟨ordered, bounded⟩, nonempty, apart, free, rfl⟩
    refine ⟨⟨by omega, bounded, apart, ?_⟩, rfl⟩
    intro entry member
    have notInside := free entry member
    simp only [Bool.and_eq_true, decide_eq_true_eq] at notInside
    omega
  · rintro ⟨can, rfl⟩
    have nonempty := can.nonempty
    refine ⟨⟨Nat.le_of_lt nonempty, can.bounded⟩, Nat.ne_of_lt nonempty, can.apart, ?_, rfl⟩
    intro entry member inside
    have lies := can.outside entry member
    simp only [Bool.and_eq_true, decide_eq_true_eq] at inside
    omega

/-- **Inserting.** Text is inserted exactly where it can be. -/
theorem Sound.insert_eq_ok_iff (sound : patch.Sound) :
    patch.insert offset text = (.ok (), next) ↔ patch.CanInsert offset ∧
      next = { patch with insertions := insertInsertion ⟨offset, text⟩ patch.insertions } := by
  rw [insert_eq_ok_iff_checks, checkRange_eq_ok_iff, ← sound.apart_iff_lastBefore?]
  constructor
  · rintro ⟨⟨-, bounded, -⟩, apart, rfl⟩
    exact ⟨⟨bounded, fun edit member => (apart edit member).symm⟩, rfl⟩
  · rintro ⟨can, rfl⟩
    refine ⟨⟨Nat.le_refl _, can.bounded, can.bounded⟩, ?_, rfl⟩
    exact fun edit member => (can.outside edit member).symm

/-- Edits still fit together with a range that can be overwritten. -/
theorem Sound.overwrite (sound : patch.Sound) (can : patch.CanOverwrite start stop) :
    Sound { patch with overwrites := insertOverwrite ⟨start, stop, text⟩ patch.overwrites } where
  nonempty := by
    intro edit member
    rcases mem_insertOverwrite.mp member with rfl | old
    · exact can.nonempty
    · exact sound.nonempty edit old
  bounded := by
    intro edit member
    rcases mem_insertOverwrite.mp member with rfl | old
    · exact can.bounded
    · exact sound.bounded edit old
  apart := insertOverwrite_apart can.nonempty sound.nonempty sound.apart can.apart
  placed := sound.placed
  ordered := sound.ordered
  outside := by
    intro entry isInsertion edit member
    rcases mem_insertOverwrite.mp member with rfl | old
    · exact can.outside entry isInsertion
    · exact sound.outside entry isInsertion edit old

/-- Edits still fit together with text that can be inserted. -/
theorem Sound.insert (sound : patch.Sound) (can : patch.CanInsert offset) :
    Sound { patch with insertions := insertInsertion ⟨offset, text⟩ patch.insertions } where
  nonempty := sound.nonempty
  bounded := sound.bounded
  apart := sound.apart
  placed := by
    intro entry member
    rcases offset_of_mem_insertInsertion member with same | ⟨old, isOld, same⟩
    · rw [same]
      exact can.bounded
    · rw [same]
      exact sound.placed old isOld
  ordered := insertInsertion_ordered _ sound.ordered
  outside := by
    intro entry member edit isOverwrite
    rcases offset_of_mem_insertInsertion member with same | ⟨old, isOld, same⟩
    · rw [same]
      exact can.outside edit isOverwrite
    · rw [same]
      exact sound.outside old isOld edit isOverwrite

end Patch

end ClassHoist
