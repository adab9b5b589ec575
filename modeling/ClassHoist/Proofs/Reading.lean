import ClassHoist.Proofs.Usages

/-! # The classes in a document being read

While a document is read, the classes handed to components so far are those in the finished nodes,
in the open elements and blocks, and in the tags of the open elements (`Draft.usages`). A step that
leaves no fault adds at most one to them, and that one stands in the text the step read
(`Draft.step_follows`). So in a document without faults they stand in the source in order, each in
its own place, and the content of the style starts inside none of them (`Draft.run_sound`).
-/

namespace ClassHoist.Markup

namespace Draft

/-- The classes handed to components so far, in source order. -/
def usages (draft : Draft) : List Usage :=
  nodesUsages draft.nodes.reverse ++ draft.opened.reverse.flatMap Opened.usages

/-- Nothing that is open will be dropped. -/
def Kept (draft : Draft) : Prop := ∀ opened ∈ draft.opened, ¬ opened.drops

@[simp] theorem usages_moveTo (draft : Draft) (cursor : Cursor) :
    (draft.moveTo cursor).usages = draft.usages := rfl

@[simp] theorem usages_note (draft : Draft) (faults : List Fault) :
    (draft.note faults).usages = draft.usages := rfl

/-- Adding a node adds its usages behind those of the draft. -/
@[simp] theorem usages_add (draft : Draft) (node : Node) :
    (draft.add node).usages = draft.usages ++ nodesUsages [node] := by
  unfold usages add
  split
  case h_1 same =>
    simp only [same, List.reverse_cons, nodesUsages_append, List.reverse_nil, List.flatMap_nil,
      List.append_nil]
  case h_2 innermost outer same =>
    simp only [same, List.reverse_cons, List.flatMap_append, List.flatMap_cons, List.flatMap_nil,
      List.append_nil, Opened.usages_add, List.append_assoc]

/-- Entering an element or block adds what it holds so far. -/
@[simp] theorem usages_enter (draft : Draft) (opened : Opened) :
    (draft.enter opened).usages = draft.usages ++ opened.usages := by
  simp only [usages, enter, List.reverse_cons, List.flatMap_append, List.flatMap_cons,
    List.flatMap_nil, List.append_nil, List.append_assoc]

/-- Leaving an element or block keeps the classes in it. -/
theorem usages_leave {draft : Draft} {innermost : Opened} {outer : List Opened} {node : Node}
    (isOpen : draft.opened = innermost :: outer) (same : nodesUsages [node] = innermost.usages) :
    (draft.leave outer node).usages = draft.usages := by
  rw [leave, usages_add, same]
  simp only [usages, isOpen, List.reverse_cons, List.flatMap_append, List.flatMap_cons,
    List.flatMap_nil, List.append_nil, List.append_assoc]

@[simp] theorem faults_moveTo (draft : Draft) (cursor : Cursor) :
    (draft.moveTo cursor).faults = draft.faults := rfl

@[simp] theorem faults_note (draft : Draft) (faults : List Fault) :
    (draft.note faults).faults = faults.reverse ++ draft.faults := rfl

@[simp] theorem faults_add (draft : Draft) (node : Node) :
    (draft.add node).faults = draft.faults := by
  unfold add
  split <;> rfl

@[simp] theorem faults_enter (draft : Draft) (opened : Opened) :
    (draft.enter opened).faults = draft.faults := rfl

@[simp] theorem faults_leave (draft : Draft) (outer : List Opened) (node : Node) :
    (draft.leave outer node).faults = draft.faults := by
  rw [leave, faults_add]

/-- A draft is without faults after noting some exactly if there were none to note and none before.
-/
theorem faults_note_eq_nil {draft : Draft} {faults : List Fault} :
    (draft.note faults).faults = [] ↔ faults = [] ∧ draft.faults = [] := by
  rw [faults_note, List.append_eq_nil_iff, List.reverse_eq_nil_iff]

/-- A draft that notes a fault is not without faults. -/
theorem faults_note_ne_nil (draft : Draft) (fault : Fault) (faults : List Fault) :
    (draft.note (fault :: faults)).faults ≠ [] :=
  fun none => List.cons_ne_nil _ _ (faults_note_eq_nil.mp none).1

section Blocks

variable {draft : Draft} {entry : OpenBlock} {outer : List Opened}

/-- A block that goes on without faults does so with a branch that it takes. -/
theorem exists_branch_of_clean (clean : (draft.continueBlock entry outer).faults = []) :
    ∃ braced kind code, draft.cursor.braced? = some braced ∧
      (branchHeader braced).filter (entry.kind.accepts ·.1) = some (kind, code) := by
  unfold continueBlock at clean
  simp only at clean
  split at clean
  case h_1 =>
    rw [faults_leave] at clean
    exact absurd clean (faults_note_ne_nil _ _ _)
  case h_2 braced found =>
    split at clean
    case h_1 kind code isBranch => exact ⟨braced, kind, code, found, isBranch⟩
    case h_2 => exact absurd clean (faults_note_ne_nil _ _ _)

/-- In front of one of its branches, a block goes on with that branch. -/
theorem continueBlock_of_branch {braced : Braced} {kind : BranchKind} {code : String}
    (found : draft.cursor.braced? = some braced)
    (isBranch : (branchHeader braced).filter (entry.kind.accepts ·.1) = some (kind, code)) :
    draft.continueBlock entry outer =
      { draft.moveTo braced.next with
        opened := .block
          { entry with
            part := .later (entry.parts draft.cursor.offset).1 (entry.parts draft.cursor.offset).2
              (some ⟨braced.span.start, kind, code⟩)
            start := braced.next.offset, nodes := [] } :: outer } := by
  unfold continueBlock
  simp only [found, isBranch]

/-- A block that ends without faults is ended by its keyword. -/
theorem exists_end_of_clean (clean : (draft.endBlock entry outer).faults = []) :
    ∃ braced, draft.cursor.braced? = some braced ∧
      String.ofList (Text.trim braced.inner) = entry.kind.keyword := by
  unfold endBlock at clean
  simp only at clean
  split at clean
  case h_1 =>
    rw [faults_leave] at clean
    exact absurd clean (faults_note_ne_nil _ _ _)
  case h_2 braced found =>
    rw [faults_leave] at clean
    split at clean
    case isTrue named => exact ⟨braced, found, named⟩
    case isFalse => exact absurd clean (faults_note_ne_nil _ _ _)

/-- In front of its end tag, a block is left as a node. -/
theorem endBlock_of_end {braced : Braced} (found : draft.cursor.braced? = some braced)
    (named : String.ofList (Text.trim braced.inner) = entry.kind.keyword) :
    draft.endBlock entry outer = (draft.moveTo braced.next).leave outer
      (entry.node draft.cursor.offset braced.next.offset) := by
  unfold endBlock
  simp only [found, named, ↓reduceIte, note_nil]

end Blocks

/-- Adding a node leaves nothing open that will be dropped. -/
theorem kept_add {draft : Draft} (node : Node) (kept : draft.Kept) : (draft.add node).Kept := by
  unfold add
  split
  case h_1 => exact kept
  case h_2 innermost outer same =>
    intro opened member
    rcases List.mem_cons.mp member with rfl | outside
    · rw [Opened.drops_add]
      exact kept innermost (by rw [same]; exact List.mem_cons_self)
    · exact kept opened (by rw [same]; exact List.mem_cons_of_mem _ outside)

/-- Leaving an element or block leaves nothing open that will be dropped. -/
theorem kept_leave {draft : Draft} {innermost : Opened} {outer : List Opened} (node : Node)
    (isOpen : draft.opened = innermost :: outer) (kept : draft.Kept) :
    (draft.leave outer node).Kept :=
  kept_add node fun opened member => kept opened (by rw [isOpen]; exact List.mem_cons_of_mem _ member)

/-- The second draft goes on from the first: it has at most one more usage, which stands in the
text between their places, or a style whose content starts between their places. -/
structure Follows (draft next : Draft) : Prop where
  reach : draft.cursor.Reaches next.cursor
  kept : draft.Kept → next.Kept
  added : (next.style = draft.style ∧ ∃ new : Option Usage,
      next.usages = draft.usages ++ new.toList ∧
        ∀ usage ∈ new, usage.group ≠ [] ∧
          draft.cursor.Holds next.cursor usage.span usage.group) ∨
    (draft.style = none ∧ next.usages = draft.usages ∧ ∃ style place, next.style = some style ∧
      style.contentSpan.start = place.offset ∧ draft.cursor.Reaches place ∧
        place.Reaches next.cursor)

/-- The second draft goes on from the first without usages or a style of its own. -/
structure Passes (draft next : Draft) : Prop where
  reach : draft.cursor.Reaches next.cursor
  kept : draft.Kept → next.Kept
  style : next.style = draft.style
  usages : next.usages = draft.usages

/-- A step without usages or a style of its own goes on from the draft. -/
theorem Passes.follows {draft next : Draft} (passes : draft.Passes next) : draft.Follows next :=
  ⟨passes.reach, passes.kept, .inl ⟨passes.style, none, by
    rw [passes.usages]; exact (List.append_nil _).symm, by simp⟩⟩

/-- A step that reaches on, drops nothing and reads no style or usage goes on from the draft. -/
theorem Follows.plain {draft next : Draft} (reach : draft.cursor.Reaches next.cursor)
    (kept : draft.Kept → next.Kept) (style : next.style = draft.style)
    (usages : next.usages = draft.usages) : draft.Follows next :=
  Passes.follows ⟨reach, kept, style, usages⟩

@[simp] theorem style_moveTo (draft : Draft) (cursor : Cursor) :
    (draft.moveTo cursor).style = draft.style := rfl

@[simp] theorem style_note (draft : Draft) (faults : List Fault) :
    (draft.note faults).style = draft.style := rfl

@[simp] theorem style_add (draft : Draft) (node : Node) : (draft.add node).style = draft.style := by
  unfold add
  split <;> rfl

@[simp] theorem style_enter (draft : Draft) (opened : Opened) :
    (draft.enter opened).style = draft.style := rfl

@[simp] theorem style_leave (draft : Draft) (outer : List Opened) (node : Node) :
    (draft.leave outer node).style = draft.style := by
  rw [leave, style_add]

/-- Text brings no usage and no style. -/
theorem readText_passes {draft : Draft} {text rest : Text}
    (split : draft.cursor.rest = text ++ rest) : draft.Passes (draft.readText text rest) := by
  refine .mk ?_ (fun kept => kept_add _ kept) ?_ ?_
  · simp only [readText, cursor_add, cursor_moveTo]
    exact Cursor.reaches_past split
  · simp only [readText, style_add, style_moveTo]
  · simp only [readText, usages_add, usages_moveTo]
    exact List.append_nil _

/-- A comment brings no usage and no style. -/
theorem readComment_passes (draft : Draft) : draft.Passes draft.readComment := by
  have split := (Text.spanUntil_append (Text.startsWith ['-', '-', '>'])
    draft.cursor.bump.rest).symm
  unfold readComment
  simp only
  split
  case h_1 after same =>
    rw [same] at split
    refine .mk ?_ (fun kept => kept_add _ kept) (by simp only [style_add, style_moveTo]) ?_
    · simp only [cursor_add, cursor_moveTo]
      refine (Cursor.reaches_bump _).trans (Cursor.reaches_past ?_)
      rw [List.append_assoc]
      exact split
    · simp only [usages_add, usages_moveTo]
      exact List.append_nil _
  case h_2 =>
    refine .mk ?_ (fun kept => kept) rfl rfl
    exact (Cursor.reaches_bump _).trans (Cursor.reaches_toEnd _)

/-- The usage in the tag of an element is all that the element adds, whether it is added as a node
or opened. -/
theorem Follows.ofTag {draft next : Draft} {tag : OpenTag} (role : Role)
    (read : (openTag draft.cursor).value = some tag)
    (reach : (openTag draft.cursor).next.Reaches next.cursor)
    (kept : draft.Kept → next.Kept) (style : next.style = draft.style)
    (usages : next.usages = draft.usages ++ (tagUsage? role tag.attributes).toList) :
    draft.Follows next := by
  refine ⟨(openTag_reaches _).trans reach, kept, .inl ⟨style, _, usages, ?_⟩⟩
  intro usage found
  obtain ⟨nonempty, holds⟩ := openTag_holds_usage read found
  exact ⟨nonempty, holds.widen (Cursor.Reaches.refl _) reach⟩

/-- The text of a text area holds no usage. -/
theorem nodesUsages_eq_nil_of_textContent (name : String) (cursor : Cursor) :
    nodesUsages (textContent name cursor).value = [] := by
  fun_induction textContent name cursor with
  | case1 cursor stops found place leading inside left closed =>
    simp only [leading]
    split <;> rfl
  | case2 cursor stops found place leading inside left inner after closed stop _ _ _ _ more ih =>
    rw [nodesUsages_append, nodesUsages_cons, ih]
    simp only [leading]
    split <;> rfl
  | case3 cursor stops found place leading =>
    simp only [leading]
    split <;> rfl

/-- An element goes on from the draft, with the usage of its tag at most. -/
theorem readElement_follows (draft : Draft) : draft.Follows draft.readElement := by
  unfold readElement
  simp only
  split
  case h_1 => exact .plain (openTag_reaches _) (fun kept => kept) rfl rfl
  case h_2 tag read =>
    split
    · refine .ofTag (.ofName tag.name tag.selfClosing) read ?_ (fun kept => kept_add _ kept) ?_ ?_
      · simp only [cursor_add, cursor_note, cursor_moveTo]
        exact Cursor.Reaches.refl _
      · simp only [style_add, style_note, style_moveTo]
      · simp only [usages_add, usages_note, usages_moveTo, OpenElement.usages_node,
          Opened.usages, List.reverse_nil, nodesUsages_nil, List.append_nil]
    · split
      · refine .ofTag (.ofName tag.name tag.selfClosing) read ?_ (fun kept => kept_add _ kept) ?_ ?_
        · simp only [cursor_add, cursor_note, cursor_moveTo]
          exact (rawContent_reaches _ _).trans (closingTag_reaches _ _)
        · simp only [style_add, style_note, style_moveTo]
        · simp only [usages_add, usages_note, usages_moveTo, OpenElement.usages_node,
            Opened.usages]
          split <;> exact congrArg (draft.usages ++ ·) (List.append_nil _)
      · split
        · refine .ofTag (.ofName tag.name tag.selfClosing) read ?_ (fun kept => kept_add _ kept) ?_ ?_
          · simp only [cursor_add, cursor_note, cursor_moveTo]
            exact (textContent_reaches _ _).trans (closingTag_reaches _ _)
          · simp only [style_add, style_note, style_moveTo]
          · simp only [usages_add, usages_note, usages_moveTo, OpenElement.usages_node,
              Opened.usages, List.reverse_reverse, nodesUsages_eq_nil_of_textContent,
              List.append_nil]
        · refine .ofTag (.ofName tag.name tag.selfClosing) read ?_ ?_ ?_ ?_
          · simp only [cursor_enter, cursor_note, cursor_moveTo]
            exact Cursor.Reaches.refl _
          · intro kept opened member
            rcases List.mem_cons.mp member with rfl | outside
            · exact id
            · exact kept opened outside
          · simp only [style_enter, style_note, style_moveTo]
          · simp only [usages_enter, usages_note, usages_moveTo, Opened.usages,
              List.reverse_nil, nodesUsages_nil, List.append_nil]

/-- A stray closing tag brings no usage and no style. -/
theorem readStrayClosing_passes (draft : Draft) : draft.Passes draft.readStrayClosing := by
  refine .mk ?_ (fun kept => kept) rfl rfl
  unfold readStrayClosing
  simp only [cursor_note, cursor_moveTo]
  refine Cursor.Reaches.trans ?_ (Cursor.reaches_skip _ _)
  split
  · exact (Cursor.reaches_bump _).trans (Cursor.reaches_bump _)
  · exact Cursor.reaches_bump _

/-- What is made of a construct in braces goes on from a draft moved past it, if it adds no usage
and no style. -/
theorem readBraced_passes {draft : Draft} {use : Braced → Draft → Draft}
    (stays : ∀ braced moved, (use braced moved).cursor = moved.cursor ∧
      (moved.Kept → (use braced moved).Kept) ∧ (use braced moved).style = moved.style ∧
        (use braced moved).usages = moved.usages) :
    draft.Passes (draft.readBraced use) := by
  unfold readBraced
  split
  case h_1 => exact .mk (Cursor.reaches_toEnd _) (fun kept => kept) rfl rfl
  case h_2 braced found =>
    obtain ⟨sameCursor, kept, sameStyle, sameUsages⟩ :=
      stays braced (draft.moveTo braced.next)
    refine .mk ?_ kept sameStyle sameUsages
    rw [sameCursor]
    exact Cursor.reaches_braced? found

/-- The opening tag of a block brings no usage and no style. -/
theorem readBlock_passes (draft : Draft) : draft.Passes draft.readBlock := by
  refine readBraced_passes fun braced moved => ?_
  simp only
  split
  case h_1 => exact ⟨rfl, fun kept => kept, rfl, rfl⟩
  case h_2 kind known =>
    refine ⟨rfl, ?_, rfl, ?_⟩
    · intro kept opened member
      rcases List.mem_cons.mp member with rfl | outside
      · exact id
      · exact kept opened outside
    · rw [usages_enter]
      exact List.append_nil _

/-- A special tag brings no usage and no style. -/
theorem readSpecialTag_passes (draft : Draft) : draft.Passes draft.readSpecialTag := by
  refine readBraced_passes fun braced moved => ?_
  simp only
  split
  case h_1 => exact ⟨rfl, fun kept => kept, rfl, rfl⟩
  case h_2 kind known =>
    refine ⟨cursor_add _ _, fun kept => kept_add _ kept, style_add _ _, ?_⟩
    rw [usages_add]
    exact List.append_nil _

/-- An expression brings no usage and no style. -/
theorem readExpression_passes (draft : Draft) : draft.Passes draft.readExpression := by
  refine readBraced_passes fun braced moved => ?_
  refine ⟨cursor_add _ _, fun kept => kept_add _ kept, style_add _ _, ?_⟩
  rw [usages_add]
  exact List.append_nil _

/-- A construct in braces that stands alone brings no usage and no style. -/
theorem readStrayBraced_passes (draft : Draft) : draft.Passes draft.readStrayBraced := by
  unfold readStrayBraced
  exact readBraced_passes fun braced moved => ⟨rfl, fun kept => kept, rfl, rfl⟩

/-- Reading a node goes on from the draft. -/
theorem readNode_follows (draft : Draft) : draft.Follows draft.readNode := by
  unfold readNode
  split
  · exact (readComment_passes draft).follows
  · exact readElement_follows draft
  · exact (readStrayClosing_passes draft).follows
  · exact (readBlock_passes draft).follows
  · exact (readSpecialTag_passes draft).follows
  · exact (readExpression_passes draft).follows
  · exact (readStrayBraced_passes draft).follows
  · exact (readStrayBraced_passes draft).follows
  · exact .plain (Cursor.reaches_bump _) (fun kept => kept) rfl rfl

/-- A script brings no usage and no style. -/
theorem readScript_passes (draft : Draft) : draft.Passes draft.readScript := by
  have reach := rawElement_reaches draft.cursor
  unfold readScript
  simp only
  repeat' split
  all_goals exact .mk reach (fun kept => kept) rfl rfl

/-- The content of a style starts where its opening tag ends. -/
theorem rawElement_contentSpan {cursor : Cursor} {raw : RawElement}
    (read : (rawElement cursor).value = some raw) :
    ∃ place, raw.contentSpan.start = place.offset ∧ cursor.Reaches place ∧
      place.Reaches (rawElement cursor).next := by
  refine ⟨(openTag cursor).next, (contentSpan_start_of_rawElement read).2, openTag_reaches cursor, ?_⟩
  unfold rawElement
  simp only
  split
  · exact Cursor.Reaches.refl _
  · split
    · exact Cursor.Reaches.refl _
    · exact (rawContent_reaches _ _).trans (closingTag_reaches _ _)

/-- A style goes on from the draft, whether it is kept or not. -/
theorem readStyle_follows (draft : Draft) : draft.Follows draft.readStyle := by
  have reach := rawElement_reaches draft.cursor
  unfold readStyle
  simp only
  split
  case h_1 => exact .plain reach (fun kept => kept) rfl rfl
  case h_2 raw read =>
    split
    case isTrue => exact .plain reach (fun kept => kept) rfl rfl
    case isFalse first =>
      obtain ⟨place, startIs, before, after⟩ := rawElement_contentSpan read
      exact ⟨reach, fun kept => kept, .inr ⟨Option.not_isSome_iff_eq_none.mp first, rfl, _, place,
        rfl, startIs, before, after⟩⟩

/-- A step at top level goes on from the draft. -/
theorem readTop_follows (draft : Draft) : draft.Follows draft.readTop := by
  unfold readTop
  split
  · split
    · exact (readScript_passes draft).follows
    · exact readStyle_follows draft
    · exact readNode_follows draft
  · exact readNode_follows draft

/-- Closing an element brings no usage and no style. -/
theorem closeElement_passes {draft : Draft} {entry : OpenElement} {outer : List Opened}
    (isOpen : draft.opened = .element entry :: outer) :
    draft.Passes (draft.closeElement entry outer) := by
  unfold closeElement
  simp only
  split
  · refine .mk ?_ (fun kept => kept_leave _ isOpen kept) ?_ ?_
    · rw [cursor_leave]
      exact Cursor.Reaches.refl _
    · rw [style_leave]
    · exact usages_leave isOpen (OpenElement.usages_node _ _)
  · have stillOpen (cursor : Cursor) (faults : List Fault) :
        ((draft.moveTo cursor).note faults).opened = .element entry :: outer := isOpen
    refine .mk ?_ (fun kept => kept_leave _ (stillOpen _ _) kept) ?_ ?_
    · simp only [cursor_leave, cursor_note, cursor_moveTo]
      exact closingTag_reaches _ _
    · simp only [style_leave, style_note, style_moveTo]
    · rw [usages_leave (stillOpen _ _) (OpenElement.usages_node _ _)]
      rfl

/-- A block that is given up brings no usage and no style, as it drops nothing. -/
theorem abandonBlock_passes {draft : Draft} {entry : OpenBlock} {outer : List Opened}
    (isOpen : draft.opened = .block entry :: outer) (kept : draft.Kept) :
    draft.Passes (draft.abandonBlock entry outer) := by
  have stillOpen (faults : List Fault) : (draft.note faults).opened = .block entry :: outer := isOpen
  have entryKept : ¬ (Opened.block entry).drops := kept _ (by rw [isOpen]; exact List.mem_cons_self)
  refine .mk ?_ (fun _ => kept_leave _ (stillOpen _) kept) ?_ ?_
  · rw [abandonBlock, cursor_leave]
    exact Cursor.Reaches.refl _
  · simp only [abandonBlock, style_leave, style_note]
  · rw [abandonBlock, usages_leave (stillOpen _) (OpenBlock.usages_node _ _ _ entryKept)]
    rfl

/-- Ending a block brings no usage and no style. -/
theorem endBlock_passes {draft : Draft} {entry : OpenBlock} {outer : List Opened}
    (isOpen : draft.opened = .block entry :: outer) (kept : draft.Kept) :
    draft.Passes (draft.endBlock entry outer) := by
  have stillOpen (cursor : Cursor) (faults : List Fault) :
      ((draft.moveTo cursor).note faults).opened = .block entry :: outer := isOpen
  have entryKept : ¬ (Opened.block entry).drops := kept _ (by rw [isOpen]; exact List.mem_cons_self)
  unfold endBlock
  simp only
  split
  case h_1 =>
    refine .mk ?_ (fun _ => kept_leave _ (stillOpen _ _) kept) ?_ ?_
    · simp only [cursor_leave, cursor_note, cursor_moveTo]
      exact Cursor.reaches_toEnd _
    · simp only [style_leave, style_note, style_moveTo]
    · rw [usages_leave (stillOpen _ _) (OpenBlock.usages_node _ _ _ entryKept)]
      rfl
  case h_2 braced found =>
    refine .mk ?_ (fun _ => kept_leave _ (stillOpen _ _) kept) ?_ ?_
    · simp only [cursor_leave, cursor_note, cursor_moveTo]
      exact Cursor.reaches_braced? found
    · simp only [style_leave, style_note, style_moveTo]
    · rw [usages_leave (stillOpen _ _) (OpenBlock.usages_node _ _ _ entryKept)]
      rfl

/-- The parts of a block read so far are the parts before the next one. -/
theorem usages_parts {entry : OpenBlock} {partStop : Nat} {branch : Option BranchStart}
    (kept : ¬ (Opened.block entry).drops) :
    (BlockPart.later (entry.parts partStop).1 (entry.parts partStop).2 branch).usages =
      (Opened.block entry).usages := by
  have node := OpenBlock.usages_node entry partStop partStop kept
  rw [OpenBlock.node, nodesUsages_block] at node
  exact node

/-- Going on with a block brings no usage and no style, unless it faults. -/
theorem continueBlock_passes {draft : Draft} {entry : OpenBlock} {outer : List Opened}
    (isOpen : draft.opened = .block entry :: outer) (kept : draft.Kept)
    (clean : (draft.continueBlock entry outer).faults = []) :
    draft.Passes (draft.continueBlock entry outer) := by
  have entryKept : ¬ (Opened.block entry).drops := kept _ (by rw [isOpen]; exact List.mem_cons_self)
  obtain ⟨braced, kind, code, found, isBranch⟩ := exists_branch_of_clean clean
  rw [continueBlock_of_branch found isBranch]
  refine .mk (Cursor.reaches_braced? found) (fun _ => ?_) rfl ?_
  · intro opened member
    rcases List.mem_cons.mp member with rfl | outside
    · exact id
    · exact kept opened (by rw [isOpen]; exact List.mem_cons_of_mem _ outside)
  · simp only [usages, moveTo, isOpen, List.reverse_cons, List.flatMap_append,
      List.flatMap_cons, List.flatMap_nil, List.append_nil]
    rw [← @usages_parts entry draft.cursor.offset (some ⟨braced.span.start, kind, code⟩) entryKept]
    simp only [Opened.usages, List.reverse_nil, nodesUsages_nil, List.append_nil]

/-- **One step.** A step that leaves the draft without faults adds at most one usage, which stands
in the text it read, or the style. -/
theorem step_follows {draft next : Draft} (stepped : draft.step = some next)
    (clean : next.faults = []) (kept : draft.Kept) : draft.Follows next := by
  cases step_eq_some_iff.mp stepped with
  | text => exact (readText_passes List.takeWhile_append_dropWhile.symm).follows
  | top => exact readTop_follows draft
  | close _ isOpen => exact (closeElement_passes isOpen).follows
  | child | inner => exact readNode_follows draft
  | abandon _ isOpen => exact (abandonBlock_passes isOpen kept).follows
  | branch _ isOpen => exact (continueBlock_passes isOpen kept clean).follows
  | finish _ isOpen => exact (endBlock_passes isOpen kept).follows

end Draft

end ClassHoist.Markup
