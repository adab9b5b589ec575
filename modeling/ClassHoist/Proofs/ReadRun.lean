import ClassHoist.Proofs.Reading

/-! # A whole reading

Faults are never taken back (`Draft.step_faults`), so a reading that ends without faults had none
at any step. Then every step keeps `Draft.Sound`: the classes found so far stand in the source, in
order and apart from each other, and the content of the style starts inside none of them. At the
end nothing is open, and the same holds of the document (`placed_of_read?`).
-/

namespace ClassHoist.Markup

namespace Draft

/-- Text notes no faults. -/
theorem readText_faults (draft : Draft) (text rest : Text) :
    (draft.readText text rest).faults = draft.faults := by
  rw [readText, faults_add, faults_moveTo]

/-- A comment takes back no faults. -/
theorem readComment_faults (draft : Draft) : draft.faults <:+ draft.readComment.faults := by
  unfold readComment
  simp only
  split
  · simp only [faults_add, faults_moveTo, List.suffix_rfl]
  · rw [faults_note, faults_moveTo]
    exact List.suffix_append _ _

/-- An element takes back no faults. -/
theorem readElement_faults (draft : Draft) : draft.faults <:+ draft.readElement.faults := by
  unfold readElement
  simp only
  split
  · exact List.suffix_append _ _
  · split
    · simp only [faults_add, faults_note, faults_moveTo]
      exact List.suffix_append _ _
    · split
      · simp only [faults_add, faults_note, faults_moveTo]
        exact (List.suffix_append _ _).trans (List.suffix_append _ _)
      · split
        · simp only [faults_add, faults_note, faults_moveTo]
          exact (List.suffix_append _ _).trans (List.suffix_append _ _)
        · simp only [faults_enter, faults_note, faults_moveTo]
          exact List.suffix_append _ _

/-- A construct in braces takes back no faults, if what it is used for takes back none. -/
theorem readBraced_faults {draft : Draft} {use : Braced → Draft → Draft}
    (grows : ∀ braced moved, moved.faults <:+ (use braced moved).faults) :
    draft.faults <:+ (draft.readBraced use).faults := by
  unfold readBraced
  split
  case h_1 => exact List.suffix_append _ _
  case h_2 braced found => exact grows braced (draft.moveTo braced.next)

/-- The opening tag of a block takes back no faults. -/
theorem readBlock_faults (draft : Draft) : draft.faults <:+ draft.readBlock.faults := by
  refine readBraced_faults fun braced moved => ?_
  simp only
  split
  · exact List.suffix_append _ _
  · exact List.suffix_rfl

/-- A special tag takes back no faults. -/
theorem readSpecialTag_faults (draft : Draft) : draft.faults <:+ draft.readSpecialTag.faults := by
  refine readBraced_faults fun braced moved => ?_
  simp only
  split
  · exact List.suffix_append _ _
  · simp only [faults_add, List.suffix_rfl]

/-- An expression takes back no faults. -/
theorem readExpression_faults (draft : Draft) : draft.faults <:+ draft.readExpression.faults := by
  refine readBraced_faults fun braced moved => ?_
  simp only [faults_add, List.suffix_rfl]

/-- A construct in braces that stands alone takes back no faults. -/
theorem readStrayBraced_faults (draft : Draft) : draft.faults <:+ draft.readStrayBraced.faults :=
  readBraced_faults fun _ _ => List.suffix_append _ _

/-- Reading a node takes back no faults. -/
theorem readNode_faults (draft : Draft) : draft.faults <:+ draft.readNode.faults := by
  unfold readNode
  split
  · exact readComment_faults draft
  · exact readElement_faults draft
  · exact List.suffix_append _ _
  · exact readBlock_faults draft
  · exact readSpecialTag_faults draft
  · exact readExpression_faults draft
  · exact readStrayBraced_faults draft
  · exact readStrayBraced_faults draft
  · exact List.suffix_rfl

/-- A script takes back no faults. -/
theorem readScript_faults (draft : Draft) : draft.faults <:+ draft.readScript.faults := by
  unfold readScript
  simp only
  repeat' split
  all_goals
    first
    | exact List.suffix_append _ _
    | exact (List.suffix_append _ _).trans (List.suffix_append _ _)

/-- A style takes back no faults. -/
theorem readStyle_faults (draft : Draft) : draft.faults <:+ draft.readStyle.faults := by
  unfold readStyle
  simp only
  split
  · exact List.suffix_append _ _
  · split
    · exact (List.suffix_append _ _).trans (List.suffix_append _ _)
    · exact List.suffix_append _ _

/-- A step at top level takes back no faults. -/
theorem readTop_faults (draft : Draft) : draft.faults <:+ draft.readTop.faults := by
  unfold readTop
  split
  · split
    · exact readScript_faults draft
    · exact readStyle_faults draft
    · exact readNode_faults draft
  · exact readNode_faults draft

/-- Closing an element takes back no faults. -/
theorem closeElement_faults (draft : Draft) (entry : OpenElement) (outer : List Opened) :
    draft.faults <:+ (draft.closeElement entry outer).faults := by
  unfold closeElement
  simp only
  split
  · simp only [faults_leave, List.suffix_rfl]
  · simp only [faults_leave, faults_note, faults_moveTo]
    exact List.suffix_append _ _

/-- Giving up a block takes back no faults. -/
theorem abandonBlock_faults (draft : Draft) (entry : OpenBlock) (outer : List Opened) :
    draft.faults <:+ (draft.abandonBlock entry outer).faults := by
  simp only [abandonBlock, faults_leave, faults_note]
  exact List.suffix_append _ _

/-- Going on with a block takes back no faults. -/
theorem continueBlock_faults (draft : Draft) (entry : OpenBlock) (outer : List Opened) :
    draft.faults <:+ (draft.continueBlock entry outer).faults := by
  unfold continueBlock
  simp only
  split
  · simp only [faults_leave, faults_note, faults_moveTo]
    exact List.suffix_append _ _
  · split
    · exact List.suffix_rfl
    · exact List.suffix_append _ _

/-- Ending a block takes back no faults. -/
theorem endBlock_faults (draft : Draft) (entry : OpenBlock) (outer : List Opened) :
    draft.faults <:+ (draft.endBlock entry outer).faults := by
  unfold endBlock
  simp only
  split
  all_goals
    simp only [faults_leave, faults_note, faults_moveTo]
    exact List.suffix_append _ _

/-- A fault found stays. -/
theorem step_faults {draft next : Draft} (stepped : draft.step = some next) :
    draft.faults <:+ next.faults := by
  cases step_eq_some_iff.mp stepped with
  | text => simp only [readText_faults, List.suffix_rfl]
  | top => exact readTop_faults draft
  | @close entry outer => exact closeElement_faults draft entry outer
  | child | inner => exact readNode_faults draft
  | @abandon entry outer => exact abandonBlock_faults draft entry outer
  | @branch entry outer => exact continueBlock_faults draft entry outer
  | @finish entry outer => exact endBlock_faults draft entry outer

/-- A run without a step to take is over. -/
theorem run_of_step_eq_none {draft : Draft} (ended : draft.step = none) :
    draft.run = draft := by
  rw [run]
  split
  · rfl
  · next stepped =>
    rw [ended] at stepped
    cases stepped

/-- A run goes on from the draft after its first step. -/
theorem run_of_step {draft next : Draft} (stepped : draft.step = some next) :
    draft.run = next.run := by
  rw [run]
  split
  · next ended =>
    rw [stepped] at ended
    cases ended
  · next stepped' =>
    rw [stepped] at stepped'
    obtain rfl := Option.some.inj stepped'
    rfl

/-- A run takes back no faults. -/
theorem run_faults (draft : Draft) : draft.faults <:+ draft.run.faults := by
  fun_induction run draft with
  | case1 draft => exact List.suffix_rfl
  | case2 draft next stepped ih => exact (step_faults stepped).trans ih

/-- The draft after some steps, or after all of them if there are fewer. -/
def advance : Nat → Draft → Draft
  | 0, draft => draft
  | count + 1, draft =>
    match draft.step with
    | none => draft
    | some next => next.advance count

/-- All steps can be taken by taking some of them first. -/
theorem run_advance (count : Nat) (draft : Draft) : (draft.advance count).run = draft.run := by
  induction count generalizing draft with
  | zero => rfl
  | succ count ih =>
    rw [advance]
    cases stepped : draft.step with
    | none => rfl
    | some next =>
      rw [run_of_step stepped]
      exact ih next

/-- Where no step is left, all have been taken. -/
theorem run_eq_advance {draft : Draft} (count : Nat)
    (ended : (draft.advance count).step.isNone = true) : draft.run = draft.advance count := by
  rw [← run_advance count, run_of_step_eq_none (Option.isNone_iff_eq_none.mp ended)]

/-- The faults found in some steps are among those that are found. -/
theorem faults_advance_subset (count : Nat) (draft : Draft) :
    (draft.advance count).faults ⊆ draft.run.faults := by
  rw [← run_advance count]
  exact (run_faults _).subset

/-- Nothing is open when no more can be read. -/
theorem opened_of_step_eq_none {draft : Draft} (ended : draft.step = none) : draft.opened = [] := by
  unfold step at ended
  simp only at ended
  split at ended
  case isFalse => cases ended
  case isTrue =>
    split at ended
    case h_1 none => exact none
    case h_2 =>
      split at ended
      · cases ended
      · cases ended
      · split at ended <;> cases ended
    case h_3 => split at ended <;> cases ended

/-- No more steps are taken only when the whole source has been read. -/
theorem rest_of_step_eq_none {draft : Draft} (ended : draft.step = none) :
    draft.cursor.rest = [] := by
  have top := opened_of_step_eq_none ended
  unfold step at ended
  simp only [top] at ended
  split at ended
  case isFalse => cases ended
  case isTrue none =>
    split at ended
    case h_2 => cases ended
    case h_1 atEnd =>
      rcases Cursor.rest_of_no_text (List.isEmpty_iff.mp none) with isEnd | ⟨tail, tag | brace⟩
      · exact isEnd
      · have opens := lexeme_tag tail
        rw [Cursor.kind_of_tag tag] at atEnd
        rw [atEnd] at opens
        exact absurd opens (by decide)
      · have opens := lexeme_brace tail
        rw [Cursor.kind_of_brace brace] at atEnd
        rw [atEnd] at opens
        exact absurd opens (by decide)

/-- No more steps are taken where the whole source has been read and nothing is open. -/
theorem step_eq_none_of_ended {draft : Draft} (top : draft.opened = [])
    (ended : draft.cursor.rest = []) : draft.step = none := by
  unfold step
  simp only [ended, top, Cursor.kind_of_ended ended, List.takeWhile_nil, List.isEmpty_nil,
    ↓reduceIte]

/-- A run ends with nothing open. -/
theorem opened_run (draft : Draft) : draft.run.opened = [] := by
  fun_induction run draft with
  | case1 draft ended => exact opened_of_step_eq_none ended
  | case2 draft next stepped ih => exact ih

/-- What has been read of a source without finding a fault: the usages stand in it in order, none
of them on both sides of the start of the style's content. -/
structure Sound (source : Text) (draft : Draft) : Prop where
  reach : (Cursor.start source).Reaches draft.cursor
  kept : draft.Kept
  holds : ∀ usage ∈ draft.usages, usage.group ≠ [] ∧
    (Cursor.start source).Holds draft.cursor usage.span usage.group
  ordered : draft.usages.Pairwise fun first second => first.span.stop ≤ second.span.start
  style : ∀ style ∈ draft.style, ∃ place, style.contentSpan.start = place.offset ∧
    (Cursor.start source).Reaches place ∧ place.Reaches draft.cursor ∧
      ∀ usage ∈ draft.usages, usage.span.stop ≤ place.offset ∨ place.offset ≤ usage.span.start

/-- In the beginning nothing has been found. -/
theorem start_sound (source : Text) : (start source).Sound source where
  reach := Cursor.Reaches.refl _
  kept := by intro opened member; cases member
  holds := by intro usage member; cases member
  ordered := List.Pairwise.nil
  style := by intro style found; cases found

/-- A draft that goes on from a sound one is sound. -/
theorem Follows.sound {source : Text} {draft next : Draft} (follows : draft.Follows next)
    (sound : draft.Sound source) : next.Sound source := by
  have reach := sound.reach.trans follows.reach
  have old : ∀ usage ∈ draft.usages, usage.group ≠ [] ∧
      (Cursor.start source).Holds next.cursor usage.span usage.group := by
    intro usage member
    obtain ⟨nonempty, holds⟩ := sound.holds usage member
    exact ⟨nonempty, holds.widen (Cursor.Reaches.refl _) follows.reach⟩
  -- A step adds a usage or a style, each behind all that has been read.
  rcases follows.added with ⟨sameStyle, new, added, stands⟩ | ⟨-, sameUsages, style, place,
    isStyle, startIs, before, after⟩
  · have later : ∀ usage ∈ new, draft.cursor.offset ≤ usage.span.start :=
      fun usage isNew => (stands usage isNew).2.start_le
    refine ⟨reach, follows.kept sound.kept, ?_, ?_, ?_⟩
    · intro usage member
      rw [added] at member
      rcases List.mem_append.mp member with earlier | isNew
      · exact old usage earlier
      · obtain ⟨nonempty, holds⟩ := stands usage (Option.mem_toList.mp isNew)
        exact ⟨nonempty, holds.widen sound.reach (Cursor.Reaches.refl _)⟩
    · rw [added]
      refine List.pairwise_append.mpr ⟨sound.ordered, ?_, ?_⟩
      · cases new with
        | none => exact List.Pairwise.nil
        | some usage => exact List.pairwise_singleton _ _
      · intro first earlier second isNew
        exact Nat.le_trans (sound.holds first earlier).2.le_stop
          (later second (Option.mem_toList.mp isNew))
    · intro style found
      rw [sameStyle] at found
      obtain ⟨place, startIs, before, after, apart⟩ := sound.style style found
      refine ⟨place, startIs, before, after.trans follows.reach, ?_⟩
      intro usage member
      rw [added] at member
      rcases List.mem_append.mp member with earlier | isNew
      · exact apart usage earlier
      · exact .inr (Nat.le_trans after.offset_le (later usage (Option.mem_toList.mp isNew)))
  · refine ⟨reach, follows.kept sound.kept, ?_, ?_, ?_⟩
    · rw [sameUsages]
      exact old
    · rw [sameUsages]
      exact sound.ordered
    · intro other found
      rw [isStyle] at found
      obtain rfl := Option.some.inj found
      refine ⟨place, startIs, sound.reach.trans before, after, ?_⟩
      intro usage member
      rw [sameUsages] at member
      exact .inl (Nat.le_trans (sound.holds usage member).2.le_stop before.offset_le)

/-- **A whole run.** If reading ends without faults, what has been read is sound. -/
theorem run_sound {source : Text} {draft : Draft} (sound : draft.Sound source)
    (clean : draft.run.faults = []) : draft.run.Sound source := by
  fun_induction run draft with
  | case1 draft => exact sound
  | case2 draft next stepped ih =>
    have nextClean : next.faults = [] :=
      List.suffix_nil.mp (clean ▸ run_faults next)
    exact ih ((step_follows stepped nextClean sound.kept).sound sound) clean

/-- What has been read stays, if reading ends without faults. -/
theorem run_keeps {draft : Draft} (kept : draft.Kept) (clean : draft.run.faults = []) :
    draft.usages <+: draft.run.usages ∧ ∀ style ∈ draft.style, draft.run.style = some style := by
  fun_induction run draft with
  | case1 draft => exact ⟨List.prefix_refl _, fun style found => found⟩
  | case2 draft next stepped ih =>
    have nextClean : next.faults = [] :=
      List.suffix_nil.mp (clean ▸ run_faults next)
    have follows := step_follows stepped nextClean kept
    obtain ⟨usages, style⟩ := ih (follows.kept kept) clean
    rcases follows.added with ⟨sameStyle, new, added, -⟩ | ⟨first, sameUsages, -⟩
    · exact ⟨.trans ⟨new.toList, added.symm⟩ usages, sameStyle ▸ style⟩
    · refine ⟨sameUsages ▸ usages, fun style found => ?_⟩
      rw [first] at found
      cases found

end Draft

/-- The document that a source holds after some steps. -/
def documentAfter (count : Nat) (source : Text) : Document :=
  ((Draft.start source).advance count).document source

/-- A source is read in some steps if these are all, and find no fault. -/
theorem read?_eq_documentAfter {source : Text} (count : Nat)
    (ended : ((Draft.start source).advance count).step.isNone = true)
    (clean : ((Draft.start source).advance count).faults.isEmpty = true) :
    read? source = .ok (documentAfter count source) := by
  unfold read? read documentAfter
  rw [Draft.run_eq_advance count ended]
  simp only [List.isEmpty_iff.mp clean]
  rfl

/-- The usages of a document stand in the source in order, none of them on both sides of the start
of the style's content. -/
structure Document.Placed (source : Text) (document : Document) : Prop where
  holds : ∀ usage ∈ document.usages, usage.group ≠ [] ∧
    Text.Stands source usage.span.start usage.span.stop usage.group
  ordered : document.usages.Pairwise fun first second => first.span.stop ≤ second.span.start
  style : ∀ style ∈ document.style, Text.isBoundary source style.contentSpan.start = true ∧
    ∀ usage ∈ document.usages,
      usage.span.stop ≤ style.contentSpan.start ∨ style.contentSpan.start ≤ usage.span.start

/-- What is held behind the start of a source stands in it. -/
theorem Cursor.Holds.stands {source : Text} {last : Cursor} {span : Span} {text : Text}
    (holds : (Cursor.start source).Holds last span text) :
    Text.Stands source span.start span.stop text := by
  obtain ⟨before, after, whole, startIs, stopIs, -⟩ := holds
  exact ⟨before, after ++ last.rest, whole, by simpa [start] using startIs.symm, stopIs⟩

/-- What a document holds is what was read in a whole run. -/
theorem run_of_read? {source : Text} {document : Document} (done : read? source = .ok document) :
    (Draft.start source).run.faults = [] ∧ document.usages = (Draft.start source).run.usages ∧
      document.style = (Draft.start source).run.style := by
  obtain ⟨rfl, noFaults⟩ := Prod.mk.inj (read_eq_of_read? done)
  refine ⟨List.reverse_eq_nil_iff.mp noFaults, ?_, rfl⟩
  rw [Draft.usages, Draft.opened_run]
  exact (List.append_nil _).symm

/-- A source that is read without faults holds the classes of its document. -/
theorem placed_of_read? {source : Text} {document : Document}
    (done : read? source = .ok document) : document.Placed source := by
  obtain ⟨clean, isUsages, isStyle⟩ := run_of_read? done
  have sound := Draft.run_sound (Draft.start_sound source) clean
  refine ⟨?_, ?_, ?_⟩
  · intro usage member
    rw [isUsages] at member
    obtain ⟨nonempty, holds⟩ := sound.holds usage member
    exact ⟨nonempty, holds.stands⟩
  · rw [isUsages]
    exact sound.ordered
  · intro style found
    rw [isStyle] at found
    obtain ⟨place, startIs, before, -, apart⟩ := sound.style style found
    rw [isUsages, startIs]
    exact ⟨before.isBoundary, apart⟩

end ClassHoist.Markup
