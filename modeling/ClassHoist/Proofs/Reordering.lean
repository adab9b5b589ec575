import ClassHoist.Proofs.Histories

/-! # Edits in another order

Two edits are in conflict or not, whichever is asked for first and whatever else is asked for
(`Edit.Apart`). All of some edits are accepted if each fits the source and no two are in conflict
(`Patch.accepted_eq_self_iff`), so their order decides about nothing but the order of the texts added
at one place (`Patch.ofEdits_perm`).
-/

namespace ClassHoist

namespace Edit

/-- The edit appends text. -/
def isAppend : Edit → Bool
  | append _ => true
  | _ => false

/-- The source has the range or the place of the edit. -/
def Fits (source : Text) : Edit → Prop
  | overwrite start stop _ =>
    start < stop ∧ Text.isBoundary source start = true ∧ Text.isBoundary source stop = true
  | insert offset _ => Text.isBoundary source offset = true
  | append _ => True

/-- The edits are not in conflict: overwritten ranges share no byte, and no insertion is strictly
inside of one. -/
def Apart : Edit → Edit → Prop
  | overwrite start stop _, overwrite start' stop' _ => stop ≤ start' ∨ stop' ≤ start
  | overwrite start stop _, insert offset _ => offset ≤ start ∨ stop ≤ offset
  | insert offset _, overwrite start stop _ => offset ≤ start ∨ stop ≤ offset
  | _, _ => True

/-- Neither edit of a conflict comes first. -/
theorem Apart.symm {first second : Edit} (apart : first.Apart second) : second.Apart first := by
  cases first with
  | overwrite =>
    cases second with
    | overwrite => exact Or.symm apart
    | insert | append => exact apart
  | insert | append => cases second <;> exact apart

/-- An edit with a range is an overwrite of that range. -/
theorem eq_overwrite_of_range? {edit : Edit} {range : Overwrite} (same : edit.range? = some range) :
    edit = overwrite range.start range.stop range.text := by
  cases edit with
  | overwrite start stop text =>
    obtain rfl := Option.some.inj same
    rfl
  | insert | append => cases same

/-- An edit that inserts at an offset is an insertion there. -/
theorem exists_of_insertsAt {edit : Edit} {offset : Nat} (inserts : edit.insertsAt offset = true) :
    ∃ text, edit = insert offset text := by
  cases edit with
  | insert place text => exact ⟨text, by rw [beq_iff_eq.mp inserts]⟩
  | overwrite | append => cases inserts

end Edit

namespace Patch

variable {patch other : Patch} {source : Text} {edits edits' asked : List Edit} {edit : Edit}

namespace Records

/-- The ranges of a patch are those of the edits. -/
theorem mem_overwrites_iff (records : patch.Records source edits) {range : Overwrite} :
    range ∈ patch.overwrites ↔ Edit.overwrite range.start range.stop range.text ∈ edits := by
  rw [records.ranges, List.mem_filterMap]
  constructor
  · rintro ⟨edit, member, same⟩
    exact Edit.eq_overwrite_of_range? same ▸ member
  · exact fun member => ⟨_, member, rfl⟩

/-- Insertions stand where an edit inserts. -/
theorem mem_offsets_iff (records : patch.Records source edits) {offset : Nat} :
    offset ∈ patch.insertions.map Insertion.offset ↔ ∃ text, Edit.insert offset text ∈ edits := by
  rw [records.offsets]
  constructor
  · rintro ⟨edit, member, inserts⟩
    obtain ⟨text, rfl⟩ := Edit.exists_of_insertsAt inserts
    exact ⟨text, member⟩
  · rintro ⟨text, member⟩
    exact ⟨_, member, beq_self_eq_true offset⟩

/-- An edit is in conflict with no earlier one if it is in conflict with nothing that is recorded. -/
theorem apart_overwrite_iff (records : patch.Records source edits) {start stop : Nat} {text : Text} :
    (∀ old ∈ edits, old.Apart (.overwrite start stop text)) ↔
      (∀ range ∈ patch.overwrites, range.stop ≤ start ∨ stop ≤ range.start) ∧
        ∀ entry ∈ patch.insertions, entry.offset ≤ start ∨ stop ≤ entry.offset := by
  constructor
  · intro apart
    refine ⟨fun range member => apart _ (records.mem_overwrites_iff.mp member),
      fun entry member => ?_⟩
    obtain ⟨text, isEdit⟩ := records.mem_offsets_iff.mp (List.mem_map_of_mem member)
    exact apart _ isEdit
  · rintro ⟨ranges, places⟩ old member
    cases old with
    | overwrite start' stop' text' =>
      exact ranges ⟨start', stop', text'⟩ (records.mem_overwrites_iff.mpr member)
    | insert offset text' =>
      obtain ⟨entry, isEntry, rfl⟩ :=
        List.mem_map.mp (records.mem_offsets_iff.mpr ⟨text', member⟩)
      exact places entry isEntry
    | append => trivial

/-- An insertion is apart from all edits if it is strictly inside no overwritten range. -/
theorem apart_insert_iff (records : patch.Records source edits) {offset : Nat} {text : Text} :
    (∀ old ∈ edits, old.Apart (.insert offset text)) ↔
      ∀ range ∈ patch.overwrites, offset ≤ range.start ∨ range.stop ≤ offset := by
  constructor
  · exact fun apart range member => apart _ (records.mem_overwrites_iff.mp member)
  · intro ranges old member
    cases old with
    | overwrite start stop text' =>
      exact ranges ⟨start, stop, text'⟩ (records.mem_overwrites_iff.mpr member)
    | insert | append => trivial

/-- **One edit.** It is accepted if it fits the source and is in conflict with none before it. -/
theorem exists_attempt_iff (records : patch.Records source edits) :
    (∃ next, patch.attempt edit = (.ok (), next)) ↔
      edit.Fits source ∧ ∀ old ∈ edits, old.Apart edit := by
  cases edit with
  | overwrite start stop text =>
    have can : (∃ next, patch.attempt (.overwrite start stop text) = (.ok (), next)) ↔
        patch.CanOverwrite start stop :=
      ⟨fun ⟨_, done⟩ => (records.sound.overwrite_eq_ok_iff.mp done).1,
        fun can => ⟨_, records.sound.overwrite_eq_ok_iff.mpr ⟨can, rfl⟩⟩⟩
    rw [can, records.apart_overwrite_iff, Edit.Fits, ← records.source]
    constructor
    · exact fun can => ⟨⟨can.nonempty, can.bounded⟩, can.apart, can.outside⟩
    · exact fun ⟨⟨nonempty, bounded⟩, apart, outside⟩ => ⟨nonempty, bounded, apart, outside⟩
  | insert offset text =>
    have can : (∃ next, patch.attempt (.insert offset text) = (.ok (), next)) ↔
        patch.CanInsert offset :=
      ⟨fun ⟨_, done⟩ => (records.sound.insert_eq_ok_iff.mp done).1,
        fun can => ⟨_, records.sound.insert_eq_ok_iff.mpr ⟨can, rfl⟩⟩⟩
    rw [can, records.apart_insert_iff, Edit.Fits, ← records.source]
    exact ⟨fun can => ⟨can.bounded, can.outside⟩, fun ⟨bounded, outside⟩ => ⟨bounded, outside⟩⟩
  | append text =>
    exact iff_of_true ⟨_, rfl⟩ ⟨trivial, fun old _ => by cases old <;> trivial⟩

end Records

/-- No more edits are accepted than asked for. -/
theorem length_accepted_le (patch : Patch) (asked : List Edit) :
    (patch.accepted asked).length ≤ asked.length := by
  induction asked generalizing patch with
  | nil => exact Nat.le_refl _
  | cons edit rest ih =>
    rw [accepted]
    split
    · exact Nat.succ_le_succ (ih _)
    · exact Nat.le_succ_of_le (ih _)

/-- The first of some edits that are all accepted is, and so are the others after it. -/
theorem accepted_cons_eq_self_iff {rest : List Edit} :
    patch.accepted (edit :: rest) = edit :: rest ↔
      ∃ next, patch.attempt edit = (.ok (), next) ∧ next.accepted rest = rest := by
  rw [accepted]
  obtain ⟨answer, left⟩ := patch.attempt edit
  cases answer with
  | ok done => simp only [List.cons.injEq, true_and, Prod.mk.injEq, exists_eq_left']
  | error refusal =>
    constructor
    · intro same
      have short := left.length_accepted_le rest
      rw [show left.accepted rest = edit :: rest from same, List.length_cons] at short
      omega
    · rintro ⟨next, impossible, -⟩
      cases impossible

/-- Edits are all accepted after others if each fits the source, no two of them are in conflict and
none is in conflict with those others. -/
theorem Records.accepted_eq_self_iff (records : patch.Records source edits) :
    patch.accepted asked = asked ↔ (∀ edit ∈ asked, edit.Fits source) ∧
      asked.Pairwise Edit.Apart ∧ ∀ old ∈ edits, ∀ edit ∈ asked, old.Apart edit := by
  induction asked generalizing patch edits with
  | nil => exact iff_of_true rfl ⟨nofun, List.Pairwise.nil, fun _ _ => nofun⟩
  | cons edit rest ih =>
    have behind {next : Patch} (done : patch.attempt edit = (.ok (), next)) :=
      ih (records.attempt done)
    rw [accepted_cons_eq_self_iff, List.forall_mem_cons, List.pairwise_cons]
    constructor
    · rintro ⟨next, done, all⟩
      obtain ⟨fits, apart⟩ := records.exists_attempt_iff.mp ⟨next, done⟩
      obtain ⟨fitRest, apartRest, across⟩ := (behind done).mp all
      refine ⟨⟨fits, fitRest⟩, ⟨?_, apartRest⟩, fun old member => ?_⟩
      · exact across edit (List.mem_append_right _ List.mem_cons_self)
      · exact List.forall_mem_cons.mpr
          ⟨apart old member, across old (List.mem_append_left _ member)⟩
    · rintro ⟨⟨fits, fitRest⟩, ⟨fromEdit, apartRest⟩, across⟩
      obtain ⟨next, done⟩ := records.exists_attempt_iff.mpr
        ⟨fits, fun old member => across old member edit List.mem_cons_self⟩
      refine ⟨next, done, (behind done).mpr ⟨fitRest, apartRest, fun old member => ?_⟩⟩
      rcases List.mem_append.mp member with earlier | isEdit
      · exact fun other inRest => across old earlier other (List.mem_cons_of_mem _ inRest)
      · exact List.mem_singleton.mp isEdit ▸ fromEdit

/-- **All edits.** They are accepted if each fits the source and no two are in conflict. -/
theorem accepted_eq_self_iff :
    (ofSource source).accepted asked = asked ↔
      (∀ edit ∈ asked, edit.Fits source) ∧ asked.Pairwise Edit.Apart := by
  rw [(records_ofSource source).accepted_eq_self_iff]
  exact and_congr_right fun _ => and_iff_left fun _ => nofun

/-- In a strict order, a list is known by its members. -/
theorem eq_of_pairwise_of_mem_iff {α : Type} {before : α → α → Prop} {first second : List α}
    (strict : ∀ {a b}, before a b → ¬ before b a) (ordered : first.Pairwise before)
    (ordered' : second.Pairwise before) (same : ∀ entry, entry ∈ first ↔ entry ∈ second) :
    first = second := by
  have differ {a b : α} (isBefore : before a b) : a ≠ b := by
    rintro rfl
    exact strict isBefore isBefore
  have perm : first.Perm second :=
    (List.perm_ext_iff_of_nodup (ordered.imp differ) (ordered'.imp differ)).mpr same
  exact perm.eq_of_pairwise (fun _ _ _ _ left right => absurd right (strict left)) ordered ordered'

/-- The text inserted at the offset of an insertion is its text. -/
theorem insertedAt_of_mem {entries : List Insertion} {entry : Insertion}
    (ordered : entries.Pairwise fun first second => first.offset < second.offset)
    (member : entry ∈ entries) : insertedAt entries entry.offset = entry.text := by
  obtain ⟨front, back, rfl⟩ := List.append_of_mem member
  obtain ⟨-, orderedBack, across⟩ := List.pairwise_append.mp ordered
  have inFront : insertedAt front entry.offset = [] := insertedAt_eq_nil fun other isOther =>
    Nat.ne_of_lt (across other isOther entry List.mem_cons_self)
  have inBack : insertedAt back entry.offset = [] := insertedAt_eq_nil fun other isOther =>
    Nat.ne_of_gt ((List.pairwise_cons.mp orderedBack).1 other isOther)
  have split : insertedAt (front ++ entry :: back) entry.offset =
      insertedAt front entry.offset ++ insertedAt (entry :: back) entry.offset := by
    simp only [insertedAt, List.filter_append, List.flatMap_append]
  rw [split, insertedAt_cons, if_pos rfl, inFront, inBack, List.append_nil, List.nil_append]

namespace Records

/-- Each insertion has the texts of all edits that insert there, in the order asked. -/
theorem mem_insertions_iff (records : patch.Records source edits) {entry : Insertion} :
    entry ∈ patch.insertions ↔ (∃ edit ∈ edits, edit.insertsAt entry.offset = true) ∧
      entry.text = insertedBy edits entry.offset := by
  have ordered := records.sound.ordered
  rw [← records.offsets, ← records.inserted]
  constructor
  · exact fun member => ⟨List.mem_map_of_mem member, (insertedAt_of_mem ordered member).symm⟩
  · rintro ⟨isOffset, text⟩
    obtain ⟨other, member, offset⟩ := List.mem_map.mp isOffset
    rw [← offset, insertedAt_of_mem ordered member] at text
    obtain ⟨offset', text'⟩ := entry
    obtain rfl : text' = other.text := text
    obtain rfl : other.offset = offset' := offset
    exact member

/-- **What is recorded.** A patch is known by the ranges that were overwritten, the insertions at
each offset in their order, and what was appended. -/
theorem eq_of_same (records : patch.Records source edits) (records' : other.Records source edits')
    (ranges : ∀ edit, edit ∈ edits ↔ edit ∈ edits')
    (insertions : ∀ offset, edits.filter (·.insertsAt offset) = edits'.filter (·.insertsAt offset))
    (appended : edits.flatMap Edit.appended = edits'.flatMap Edit.appended) : patch = other := by
  have ordered {patch : Patch} (sound : patch.Sound) :
      patch.overwrites.Pairwise fun first second => first.start < second.start :=
    sound.apart.imp_of_mem fun isFirst _ apart =>
      Nat.lt_of_lt_of_le (sound.nonempty _ isFirst) apart
  have overwrites : patch.overwrites = other.overwrites := by
    refine eq_of_pairwise_of_mem_iff Nat.lt_asymm (ordered records.sound) (ordered records'.sound)
      fun range => ?_
    rw [records.mem_overwrites_iff, records'.mem_overwrites_iff, ranges]
  have entries : patch.insertions = other.insertions := by
    refine eq_of_pairwise_of_mem_iff Nat.lt_asymm records.sound.ordered records'.sound.ordered
      fun entry => ?_
    rw [records.mem_insertions_iff, records'.mem_insertions_iff, insertedBy, insertedBy, insertions]
    simp only [ranges]
  obtain ⟨source', overwrites', insertions', appended'⟩ := patch
  obtain ⟨source'', overwrites'', insertions'', appended''⟩ := other
  obtain rfl : source' = source := records.source
  obtain rfl : source'' = source' := records'.source
  obtain rfl : overwrites' = overwrites'' := overwrites
  obtain rfl : insertions' = insertions'' := entries
  obtain rfl : appended' = appended'' :=
    records.appended.trans (appended.trans records'.appended.symm)
  rfl

end Records

/-- Only edits that append add to the end. -/
theorem flatMap_appended (edits : List Edit) :
    edits.flatMap Edit.appended = (edits.filter Edit.isAppend).flatMap Edit.appended := by
  induction edits with
  | nil => rfl
  | cons edit rest ih =>
    rw [List.flatMap_cons, ih]
    cases edit with
    | append text => rfl
    | overwrite | insert => rfl

/-- **Edits in another order.** Edits that are all accepted are all accepted in any order, and leave
the same patch if insertions at one offset keep their order and appended texts keep theirs. -/
theorem ofEdits_perm {first second : List Edit} (all : (ofSource source).accepted first = first)
    (perm : first.Perm second)
    (insertions : ∀ offset, first.filter (·.insertsAt offset) = second.filter (·.insertsAt offset))
    (appends : first.filter Edit.isAppend = second.filter Edit.isAppend) :
    (ofSource source).accepted second = second ∧
      (ofEdits source second).output = (ofEdits source first).output ∧
        (ofEdits source second).table = (ofEdits source first).table := by
  have all' : (ofSource source).accepted second = second := by
    rw [accepted_eq_self_iff] at all ⊢
    exact ⟨fun edit member => all.1 edit (perm.mem_iff.mpr member),
      (perm.pairwise_iff Edit.Apart.symm).mp all.2⟩
  have records := records_ofEdits source first
  have records' := records_ofEdits source second
  rw [all] at records
  rw [all'] at records'
  have same : ofEdits source second = ofEdits source first := by
    refine records'.eq_of_same records (fun edit => perm.symm.mem_iff)
      (fun offset => (insertions offset).symm) ?_
    rw [flatMap_appended second, flatMap_appended first, appends]
  exact ⟨all', congrArg output same, congrArg table same⟩

/-- Insertions at either end of a range that is overwritten between them, before them or after. -/
theorem ofEdits_perm_ends :
    let source : Text := ['a', 'b', 'c', 'd']
    let front : Edit := .insert 1 ['<']
    let back : Edit := .insert 3 ['>']
    let again : Edit := .insert 3 ['|']
    let first : List Edit := [front, .overwrite 1 3 ['x'], back, .append ['!'], again]
    let second : List Edit := [back, again, .append ['!'], .overwrite 1 3 ['x'], front]
    (ofSource source).accepted first = first ∧ first.Perm second ∧
      (∀ offset, first.filter (·.insertsAt offset) = second.filter (·.insertsAt offset)) ∧
      first.filter Edit.isAppend = second.filter Edit.isAppend ∧
      (ofSource source).accepted second = second ∧
        (ofEdits source second).output = (ofEdits source first).output ∧
          (ofEdits source second).table = (ofEdits source first).table := by
  intro source front back again first second
  have all : (ofSource source).accepted first = first := by decide
  have perm : first.Perm second := by decide
  have insertions (offset : Nat) :
      first.filter (·.insertsAt offset) = second.filter (·.insertsAt offset) := by
    by_cases atFront : 1 = offset
    · subst atFront
      decide
    · by_cases atBack : 3 = offset
      · subst atBack
        decide
      · simp [first, second, front, back, again, Edit.insertsAt, atFront, atBack]
  have appends : first.filter Edit.isAppend = second.filter Edit.isAppend := by decide
  exact ⟨all, perm, insertions, appends, ofEdits_perm all perm insertions appends⟩

end Patch

end ClassHoist
