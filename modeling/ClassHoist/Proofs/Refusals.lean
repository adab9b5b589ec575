import ClassHoist.Proofs.Reordering

/-! # Edits that are refused

Whatever edits were asked for before, the next one is accepted exactly if it is legal next to those
that were accepted (`Edit.Legal`). A refusal names what stands in the way (`Edit.RefusedFor`), and a
refused edit might as well not have been asked for (`Patch.ofEdits_edit`).
-/

namespace ClassHoist

namespace Edit

/-- An edit of a source is legal next to others. -/
def Legal (source : Text) (earlier : List Edit) : Edit → Prop
  | overwrite start stop _ =>
    start < stop ∧ stop ≤ source.bytes ∧
      Text.isBoundary source start = true ∧ Text.isBoundary source stop = true ∧
      (∀ otherStart otherStop text, overwrite otherStart otherStop text ∈ earlier →
        ∀ byte, ¬ ((⟨start, stop⟩ : Span).contains byte = true ∧
          (⟨otherStart, otherStop⟩ : Span).contains byte = true)) ∧
      ∀ offset text, insert offset text ∈ earlier → ¬ (start < offset ∧ offset < stop)
  | insert offset _ =>
    offset ≤ source.bytes ∧ Text.isBoundary source offset = true ∧
      ∀ start stop text, overwrite start stop text ∈ earlier → ¬ (start < offset ∧ offset < stop)
  | append _ => True

/-- What a refusal says of an edit is the case: about its own range or place, or about one of the
edits that were accepted before, whose range shares a byte with it, or which lies strictly inside it
or around it. -/
inductive RefusedFor (source : Text) (earlier : List Edit) : Edit → EditError → Prop
  | range {start stop : Nat} {text : Text} (outside : stop < start ∨ source.bytes < stop) :
      RefusedFor source earlier (overwrite start stop text)
        (.outOfBounds start stop source.bytes)
  | place {offset : Nat} {text : Text} (outside : source.bytes < offset) :
      RefusedFor source earlier (insert offset text) (.outOfBounds offset offset source.bytes)
  | rangeInCharacter {start stop offset : Nat} {text : Text}
      (isEnd : offset = start ∨ offset = stop) (splits : Text.isBoundary source offset = false) :
      RefusedFor source earlier (overwrite start stop text) (.notCharBoundary offset)
  | placeInCharacter {offset : Nat} {text : Text} (splits : Text.isBoundary source offset = false) :
      RefusedFor source earlier (insert offset text) (.notCharBoundary offset)
  | empty {offset : Nat} {text : Text} :
      RefusedFor source earlier (overwrite offset offset text) (.emptyRange offset)
  | overlap {start stop otherStart otherStop byte : Nat} {text other : Text}
      (accepted : overwrite otherStart otherStop other ∈ earlier)
      (inRange : (⟨start, stop⟩ : Span).contains byte = true)
      (inOther : (⟨otherStart, otherStop⟩ : Span).contains byte = true) :
      RefusedFor source earlier (overwrite start stop text)
        (.overlap start stop otherStart otherStop)
  | around {start stop offset : Nat} {text inserted : Text}
      (accepted : insert offset inserted ∈ earlier) (inside : start < offset ∧ offset < stop) :
      RefusedFor source earlier (overwrite start stop text) (.insideOverwrite offset start stop)
  | inside {offset start stop : Nat} {text other : Text}
      (accepted : overwrite start stop other ∈ earlier) (inside : start < offset ∧ offset < stop) :
      RefusedFor source earlier (insert offset text) (.insideOverwrite offset start stop)

end Edit

namespace Patch

variable {patch : Patch} {source : Text} {edits : List Edit} {start stop offset : Nat}
  {refusal : EditError} {left : Patch}

/-- Why a range is refused before anything else is looked at. -/
theorem cases_of_checkRange_eq_error (refused : patch.checkRange start stop = .error refusal) :
    (refusal = .outOfBounds start stop patch.source.bytes ∧
        (stop < start ∨ patch.source.bytes < stop)) ∨
      ∃ offset, refusal = .notCharBoundary offset ∧ (offset = start ∨ offset = stop) ∧
        Text.isBoundary patch.source offset = false := by
  unfold checkRange at refused
  simp only at refused
  split at refused
  case isTrue outside =>
    obtain rfl := Except.error.inj refused
    simp only [gt_iff_lt, Bool.or_eq_true, decide_eq_true_eq] at outside
    exact .inl ⟨rfl, outside⟩
  case isFalse =>
    split at refused
    case isTrue splits =>
      obtain rfl := Except.error.inj refused
      exact .inr ⟨start, rfl, .inl rfl, Bool.not_eq_true' _ ▸ splits⟩
    case isFalse =>
      split at refused
      case isTrue splits =>
        obtain rfl := Except.error.inj refused
        exact .inr ⟨stop, rfl, .inr rfl, Bool.not_eq_true' _ ▸ splits⟩
      case isFalse => cases refused

/-- An insertion that the check for a range finds stands strictly inside the range. -/
theorem Records.refusedFor_of_find? (records : patch.Records source edits) {text : Text}
    {inner : Insertion}
    (found : (patch.insertions.find? fun i => start < i.offset && i.offset < stop) = some inner) :
    Edit.RefusedFor source edits (.overwrite start stop text)
      (.insideOverwrite inner.offset start stop) := by
  have inside := List.find?_some found
  simp only [Bool.and_eq_true, decide_eq_true_eq] at inside
  obtain ⟨inserted, accepted⟩ := records.mem_offsets_iff.mp
    (List.mem_map_of_mem (List.mem_of_find?_eq_some found))
  exact .around accepted inside

/-- **Refused ranges.** A refusal to overwrite says what is the case. -/
theorem Records.refusedFor_overwrite (records : patch.Records source edits) {text : Text}
    (refused : patch.overwrite start stop text = (.error refusal, left)) :
    Edit.RefusedFor source edits (.overwrite start stop text) refusal := by
  obtain rfl := records.source
  have outcome := patch.overwrite_outcome start stop text
  rw [refused] at outcome
  cases outcome with
  | outside checked =>
    rcases cases_of_checkRange_eq_error checked with
      ⟨rfl, outside⟩ | ⟨offset, rfl, isEnd, splits⟩
    · exact .range outside
    · exact .rangeInCharacter isEnd splits
  | empty checked same => exact same ▸ .empty
  | @overlap last checked nonempty isLast shares =>
    have ordered := (checkRange_eq_ok_iff.mp checked).1
    obtain ⟨member, before⟩ := mem_of_lastBefore? isLast
    have lastNonempty := records.sound.nonempty last member
    have accepted := records.mem_overwrites_iff.mp member
    -- The two ranges share the byte at which the later of them starts.
    have shared : (⟨start, stop⟩ : Span).contains (max start last.start) ∧
        (⟨last.start, last.stop⟩ : Span).contains (max start last.start) := by
      simp only [Span.contains, Bool.and_eq_true, decide_eq_true_eq]
      omega
    exact .overlap accepted shared.1 shared.2
  | around found => exact records.refusedFor_of_find? found

/-- **Refused places.** A refusal to insert says what is the case. -/
theorem Records.refusedFor_insert (records : patch.Records source edits) {text : Text}
    (refused : patch.insert offset text = (.error refusal, left)) :
    Edit.RefusedFor source edits (.insert offset text) refusal := by
  obtain rfl := records.source
  have outcome := patch.insert_outcome offset text
  rw [refused] at outcome
  cases outcome with
  | outside checked =>
    rcases cases_of_checkRange_eq_error checked with
      ⟨rfl, outside⟩ | ⟨place, rfl, isEnd, splits⟩
    · exact .place (by omega)
    · obtain rfl : place = offset := isEnd.elim id id
      exact .placeInCharacter splits
  | inside isLast inside =>
    obtain ⟨member, before⟩ := mem_of_lastBefore? isLast
    exact .inside (records.mem_overwrites_iff.mp member) ⟨before, inside⟩

/-- A refusal says what is the case. -/
theorem Records.refusedFor (records : patch.Records source edits) {edit : Edit}
    (refused : patch.attempt edit = (.error refusal, left)) :
    edit.RefusedFor source edits refusal := by
  cases edit with
  | overwrite => exact records.refusedFor_overwrite refused
  | insert => exact records.refusedFor_insert refused
  | append => cases refused

/-- Ranges that are not empty lie apart exactly if no byte is in both. -/
theorem apart_iff_contains {otherStart otherStop : Nat} (nonempty : start < stop)
    (otherNonempty : otherStart < otherStop) :
    (otherStop ≤ start ∨ stop ≤ otherStart) ↔
      ∀ byte, ¬ ((⟨start, stop⟩ : Span).contains byte = true ∧
        (⟨otherStart, otherStop⟩ : Span).contains byte = true) := by
  simp only [Span.contains, Bool.and_eq_true, decide_eq_true_eq]
  constructor
  · intro apart byte
    omega
  · intro none
    have later := none (max start otherStart)
    omega

/-- **Legal edits.** An edit is accepted exactly if it is legal next to those that are recorded. -/
theorem Records.exists_attempt_iff_legal (records : patch.Records source edits) {edit : Edit} :
    (∃ next, patch.attempt edit = (.ok (), next)) ↔ edit.Legal source edits := by
  rw [records.exists_attempt_iff]
  cases edit with
  | overwrite start stop text =>
    -- Ranges that are accepted are not empty, so apart they share no byte.
    have nonempty {otherStart otherStop : Nat} {other : Text}
        (accepted : .overwrite otherStart otherStop other ∈ edits) : otherStart < otherStop :=
      records.sound.nonempty ⟨otherStart, otherStop, other⟩ (records.mem_overwrites_iff.mpr accepted)
    constructor
    · rintro ⟨⟨ordered, first, last⟩, apart⟩
      refine ⟨ordered, Text.bytes_le_of_isBoundary last, first, last, ?_, ?_⟩
      · intro otherStart otherStop other accepted
        exact (apart_iff_contains ordered (nonempty accepted)).mp (apart _ accepted)
      · intro offset inserted accepted inside
        have lies : offset ≤ start ∨ stop ≤ offset := apart _ accepted
        omega
    · rintro ⟨ordered, -, first, last, apart, outside⟩
      refine ⟨⟨ordered, first, last⟩, fun old accepted => ?_⟩
      cases old with
      | overwrite otherStart otherStop other =>
        exact (apart_iff_contains ordered (nonempty accepted)).mpr
          (apart otherStart otherStop other accepted)
      | insert offset inserted =>
        show offset ≤ start ∨ stop ≤ offset
        have notInside := outside offset inserted accepted
        omega
      | append => trivial
  | insert offset text =>
    constructor
    · rintro ⟨boundary, apart⟩
      refine ⟨Text.bytes_le_of_isBoundary boundary, boundary, ?_⟩
      intro start stop other accepted inside
      have lies : offset ≤ start ∨ stop ≤ offset := apart _ accepted
      omega
    · rintro ⟨-, boundary, outside⟩
      refine ⟨boundary, fun old accepted => ?_⟩
      cases old with
      | overwrite start stop other =>
        show offset ≤ start ∨ stop ≤ offset
        have notInside := outside start stop other accepted
        omega
      | insert | append => trivial
  | append text => exact iff_of_true ⟨trivial, fun old _ => by cases old <;> trivial⟩ trivial

/-- Edits that are asked for after others are accepted as they are by the patch that those leave. -/
theorem accepted_append (patch : Patch) (first second : List Edit) :
    patch.accepted (first ++ second) =
      patch.accepted first ++
        (first.foldl (fun patch edit => (patch.attempt edit).2) patch).accepted second := by
  induction first generalizing patch with
  | nil => rfl
  | cons edit rest ih =>
    rw [List.cons_append, accepted, accepted, List.foldl_cons]
    obtain ⟨answer, left⟩ := patch.attempt edit
    cases answer with
    | error => exact ih left
    | ok done => exact congrArg (edit :: ·) (ih left)

/-- A refused edit changes nothing for those that are asked for after it. -/
theorem ofEdits_of_refused {asked later : List Edit} {edit : Edit}
    (refused : (ofEdits source asked).attempt edit = (.error refusal, left)) :
    ofEdits source (asked ++ edit :: later) = ofEdits source (asked ++ later) ∧
      (ofSource source).accepted (asked ++ edit :: later) =
        (ofSource source).accepted (asked ++ later) := by
  obtain rfl := attempt_refused refused
  constructor
  · rw [ofEdits, ofEdits, List.foldl_append, List.foldl_append, List.foldl_cons]
    exact congrArg (later.foldl _) (congrArg Prod.snd refused)
  · rw [accepted_append, accepted_append, accepted]
    rw [ofEdits] at refused
    rw [refused]

/-- **The next edit.** Whatever was asked for before, an edit is accepted exactly if it is legal next
to the accepted ones. A refusal leaves the patch as it was and says what is the case, and whatever is
asked for after it, the patch is the one without the refused edit, and so are the edits that are
accepted. -/
theorem ofEdits_edit (source : Text) (asked : List Edit) (edit : Edit) :
    ((∃ next, (ofEdits source asked).attempt edit = (.ok (), next)) ↔
        edit.Legal source ((ofSource source).accepted asked)) ∧
      ∀ refusal left, (ofEdits source asked).attempt edit = (.error refusal, left) →
        left = ofEdits source asked ∧
        edit.RefusedFor source ((ofSource source).accepted asked) refusal ∧
          ∀ later, ofEdits source (asked ++ edit :: later) = ofEdits source (asked ++ later) ∧
            (ofSource source).accepted (asked ++ edit :: later) =
              (ofSource source).accepted (asked ++ later) := by
  have records := records_ofEdits source asked
  refine ⟨records.exists_attempt_iff_legal, fun refusal left refused => ?_⟩
  exact ⟨attempt_refused refused, records.refusedFor refused,
    fun later => ofEdits_of_refused refused⟩

/-- A range around two overwritten ones: the later of them is named, and the patch is left as it was.
An insertion at their seam is accepted afterwards. -/
theorem ofEdits_edit_around :
    let source : Text := ['a', 'b', 'c', 'd', 'e', 'f']
    let asked : List Edit := [.overwrite 3 5 ['x'], .overwrite 1 3 ['y']]
    let refused : Edit := .overwrite 0 6 ['z']
    let later : List Edit := [.insert 3 ['|']]
    (ofEdits source asked).attempt refused =
        (.error (.overlap 0 6 3 5), ofEdits source asked) ∧
      refused.RefusedFor source asked (.overlap 0 6 3 5) ∧
        (ofEdits source (asked ++ refused :: later)).output = ['a', 'y', '|', 'x', 'f'] := by
  intro source asked refused later
  have answer : ((ofEdits source asked).attempt refused).1 = .error (.overlap 0 6 3 5) := by rfl
  obtain ⟨unchanged, holds, without⟩ := (ofEdits_edit source asked refused).2 _ _
    (Prod.ext answer rfl)
  have all : (ofSource source).accepted asked = asked := by decide
  rw [all] at holds
  rw [(without later).1]
  exact ⟨Prod.ext answer unchanged, holds, by decide⟩

end Patch

end ClassHoist
