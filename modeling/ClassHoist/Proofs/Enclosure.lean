import ClassHoist.Proofs.ReachedTags

/-! # What is open around what is read

While a document is read, the open elements and blocks are those around the place reached, and the
nodes inside them end well already (`Draft.Enclosed`). Every step of a reading without faults keeps
this (`Draft.step_enclosed`), so all nodes of a document without faults end well
(`read?_endsWell`).
-/

namespace ClassHoist.Markup

/-- What is open was opened by a tag of the source before `stop`, that of an element whose content
is markup if it is an element. -/
def Opened.OpensBefore (source : Text) (stop : Nat) : Opened → Prop
  | .element entry => bodyOf entry.tag.name entry.tag.selfClosing = .markup ∧
    entry.role = .ofName entry.tag.name entry.tag.selfClosing ∧
      ∃ inside, OpenTagAt source entry.tag.start entry.tag inside ∧ inside ≤ stop
  | .block entry => entry.header.span.stop ≤ stop

/-- What has been read inside an open element or block ends before `stop`, and ends well if these
elements and blocks are around what is open. -/
structure Opened.Encloses (source : Text) (around : List Scope) (stop : Nat) (opened : Opened) :
    Prop where
  opens : opened.OpensBefore source stop
  held : ∀ node ∈ opened.held, node.span.stop ≤ stop
  closed : Closed source (opened.scope :: around) opened.held

/-- Each open element or block is inside those after it in the list. -/
def Enclosed (source : Text) (stop : Nat) : List Opened → Prop
  | [] => True
  | opened :: outer =>
    opened.Encloses source (outer.map Opened.scope) stop ∧ Enclosed source stop outer

section Opened

variable {source : Text} {around : List Scope} {stop next : Nat}

/-- What is open encloses later places as well. -/
theorem Opened.Encloses.mono {opened : Opened} (encloses : opened.Encloses source around stop)
    (upTo : stop ≤ next) : opened.Encloses source around next where
  opens := by
    have opens := encloses.opens
    cases opened with
    | element entry =>
      obtain ⟨markup, role, inside, stands, before⟩ := opens
      exact ⟨markup, role, inside, stands, Nat.le_trans before upTo⟩
    | block entry => exact Nat.le_trans opens upTo
  held node member := Nat.le_trans (encloses.held node member) upTo
  closed := encloses.closed

/-- All that is open encloses later places as well. -/
theorem Enclosed.mono {opened : List Opened} (enclosed : Enclosed source stop opened)
    (upTo : stop ≤ next) : Enclosed source next opened := by
  induction opened with
  | nil => trivial
  | cons innermost outer ih => exact ⟨enclosed.1.mono upTo, ih enclosed.2⟩

/-- Adding a node changes nothing in how an element or block is closed. -/
theorem Opened.scope_add (opened : Opened) (node : Node) :
    (opened.add node).scope = opened.scope := by
  cases opened <;> rfl

/-- A node that ends well may be added to what is open. -/
theorem Opened.Encloses.add {opened : Opened} {node : Node}
    (encloses : opened.Encloses source around stop) (before : node.span.stop ≤ stop)
    (closed : Closed source (opened.scope :: around) [node]) :
    (opened.add node).Encloses source around stop where
  opens := by
    have opens := encloses.opens
    cases opened <;> exact opens
  held other member := by
    rw [Opened.held_add] at member
    rcases List.mem_cons.mp member with rfl | old
    · exact before
    · exact encloses.held other old
  closed := by
    rw [Opened.held_add, Opened.scope_add]
    exact closed.cons encloses.closed

/-- A closed element closes the same tags as the open one did. -/
theorem OpenElement.scope_node {entry : OpenElement}
    (role : entry.role = .ofName entry.tag.name entry.tag.selfClosing) (stop : Nat) :
    (entry.node stop).scope = (Opened.element entry).scope := by
  have named := Role.name_ofName entry.tag.name entry.tag.selfClosing
  rw [← role] at named
  obtain ⟨tag, isRole, children⟩ := entry
  cases isRole with
  | element => exact congrArg Scope.element named
  | component => exact congrArg Scope.component named
  | special => exact congrArg Scope.component named

end Opened

namespace Draft

/-- All that has been read of a source ends well, with what is open around the place reached. -/
structure Enclosed (source : Text) (draft : Draft) : Prop where
  reach : (Cursor.start source).Reaches draft.cursor
  nodes : Closed source [] draft.nodes
  opened : Markup.Enclosed source draft.cursor.offset draft.opened

section Enclosed

variable {source : Text} {draft : Draft}

/-- In the beginning nothing is open. -/
theorem start_enclosed (source : Text) : (start source).Enclosed source :=
  ⟨Cursor.Reaches.refl _, closed_nil, trivial⟩

/-- Moving on leaves the same elements and blocks around. -/
theorem Enclosed.moveTo (enclosed : draft.Enclosed source) {cursor : Cursor}
    (reach : draft.cursor.Reaches cursor) : (draft.moveTo cursor).Enclosed source :=
  ⟨enclosed.reach.trans reach, enclosed.nodes, enclosed.opened.mono reach.offset_le⟩

/-- Noting faults leaves the same elements and blocks around. -/
theorem Enclosed.note (enclosed : draft.Enclosed source) (faults : List Fault) :
    (draft.note faults).Enclosed source :=
  ⟨enclosed.reach, enclosed.nodes, enclosed.opened⟩

/-- A node that ends well there may be added. -/
theorem Enclosed.add {node : Node} (enclosed : draft.Enclosed source)
    (before : node.span.stop ≤ draft.cursor.offset) (closed : Closed source draft.scopes [node]) :
    (draft.add node).Enclosed source := by
  obtain ⟨cursor, opened, nodes, moduleScript, instanceScript, style, faults⟩ := draft
  cases opened with
  | nil => exact ⟨enclosed.reach, closed.cons enclosed.nodes, trivial⟩
  | cons innermost outer =>
    exact ⟨enclosed.reach, enclosed.nodes, enclosed.opened.1.add before closed, enclosed.opened.2⟩

/-- A node with nothing inside is no element and no block. -/
theorem Enclosed.addLeaf {node : Node} (enclosed : draft.Enclosed source)
    (before : node.span.stop ≤ draft.cursor.offset) (alone : node.inside = [])
    (ends : node.EndsWell source draft.scopes) : (draft.add node).Enclosed source :=
  enclosed.add before (closed_singleton ends (alone ▸ closed_nil))

/-- An element or block that opens in front of the place may be entered. -/
theorem Enclosed.enter {opened : Opened} (enclosed : draft.Enclosed source)
    (opens : opened.OpensBefore source draft.cursor.offset) (empty : opened.held = []) :
    (draft.enter opened).Enclosed source := by
  refine ⟨enclosed.reach, enclosed.nodes, ⟨opens, ?_, ?_⟩, enclosed.opened⟩
  · rw [empty]
    exact nofun
  · rw [empty]
    exact closed_nil

/-- What is open becomes a node of what is around it. -/
theorem Enclosed.leave {innermost : Opened} {outer : List Opened} {node : Node}
    (enclosed : draft.Enclosed source) (isOpen : draft.opened = innermost :: outer)
    (before : node.span.stop ≤ draft.cursor.offset) (scope : node.scope = innermost.scope)
    (inside : ∀ inner ∈ node.inside, inner ∈ innermost.held)
    (ends : node.EndsWell source (outer.map Opened.scope)) :
    (draft.leave outer node).Enclosed source := by
  have opened := enclosed.opened
  rw [isOpen] at opened
  have around : Enclosed source { draft with opened := outer } :=
    ⟨enclosed.reach, enclosed.nodes, opened.2⟩
  refine around.add before (closed_singleton ends ?_)
  rw [scope]
  exact opened.1.closed.subset inside

/-- Text opens and closes nothing. -/
theorem readText_enclosed (enclosed : draft.Enclosed source) {text rest : Text}
    (split : draft.cursor.rest = text ++ rest) : (draft.readText text rest).Enclosed source :=
  (enclosed.moveTo (Cursor.reaches_past split)).addLeaf (Nat.le_refl _) rfl trivial

/-- A comment opens and closes nothing. -/
theorem readComment_enclosed (enclosed : draft.Enclosed source)
    (clean : draft.readComment.faults = []) : draft.readComment.Enclosed source := by
  have reach := (readComment_passes draft).reach
  unfold readComment at clean reach ⊢
  simp only at clean reach ⊢
  split at clean
  case h_1 after same =>
    simp only [same, cursor_add, cursor_moveTo] at reach ⊢
    exact (enclosed.moveTo reach).addLeaf (Nat.le_refl _) rfl trivial
  case h_2 => exact absurd clean (faults_note_ne_nil _ _ _)

/-- A construct in braces is enclosed if what it is used for is. -/
theorem readBraced_enclosed (enclosed : draft.Enclosed source) {use : Braced → Draft → Draft}
    (uses : ∀ braced (moved : Draft), moved.Enclosed source →
      braced.span.stop ≤ moved.cursor.offset → (use braced moved).faults = [] →
        (use braced moved).Enclosed source) (clean : (draft.readBraced use).faults = []) :
    (draft.readBraced use).Enclosed source := by
  unfold readBraced at clean ⊢
  split at clean
  case h_1 => exact absurd clean (faults_note_ne_nil _ _ _)
  case h_2 braced found =>
    obtain ⟨-, span, -, -⟩ := Cursor.braced?_eq_some found
    refine uses braced _ (enclosed.moveTo (Cursor.reaches_braced? found)) ?_ clean
    rw [span]
    exact Nat.le_refl _

/-- A block is entered inside what is open. -/
theorem readBlock_enclosed (enclosed : draft.Enclosed source)
    (clean : draft.readBlock.faults = []) : draft.readBlock.Enclosed source := by
  refine readBraced_enclosed enclosed (fun braced moved here before clean => ?_) clean
  simp only at clean ⊢
  split at clean
  case h_1 => exact absurd clean (faults_note_ne_nil _ _ _)
  case h_2 kind known => exact here.enter before rfl

/-- A special tag opens and closes nothing. -/
theorem readSpecialTag_enclosed (enclosed : draft.Enclosed source)
    (clean : draft.readSpecialTag.faults = []) : draft.readSpecialTag.Enclosed source := by
  refine readBraced_enclosed enclosed (fun braced moved here before clean => ?_) clean
  simp only at clean ⊢
  split at clean
  case h_1 => exact absurd clean (faults_note_ne_nil _ _ _)
  case h_2 kind known => exact here.addLeaf before rfl trivial

/-- An expression opens and closes nothing. -/
theorem readExpression_enclosed (enclosed : draft.Enclosed source)
    (clean : draft.readExpression.faults = []) : draft.readExpression.Enclosed source :=
  readBraced_enclosed enclosed (fun _ _ here before _ => here.addLeaf before rfl trivial) clean

/-- An element whose content is read as it stands ends with its own closing tag. -/
theorem Enclosed.addElement {tag : OpenTag} {children : List Node} {place : Cursor}
    (enclosed : draft.Enclosed source)
    (stands : OpenTagAt source tag.start tag draft.cursor.offset)
    (reach : draft.cursor.Reaches place) (starts : StartsConstruct place.rest)
    (leaves : ∀ child ∈ children, child.Leaf ∧ child.span.stop ≤ place.offset) (faults : List Fault)
    (clean : (closingTag place tag.name).faults = []) :
    (((draft.moveTo (closingTag place tag.name).next).note faults).add
      (OpenElement.node ⟨tag, .ofName tag.name tag.selfClosing, children⟩
        (closingTag place tag.name).next.offset)).Enclosed source := by
  refine Enclosed.add ((enclosed.moveTo (reach.trans (closingTag_reaches place _))).note faults)
    (Nat.le_refl _) (closed_singleton ⟨tag, _, stands, rfl, rfl, ?_⟩ (closed_leaves ?_))
  · refine .closing reach.offset_le (fun child member => ?_)
      (closingTagAt_of_clean (enclosed.reach.trans reach) starts clean)
    exact (leaves child (List.mem_reverse.mp member)).2
  · exact fun child member => (leaves child (List.mem_reverse.mp member)).1

/-- What an element with a tag that has been read has for content. -/
theorem readBody_enclosed (enclosed : draft.Enclosed source) {tag : OpenTag}
    (stands : OpenTagAt source tag.start tag draft.cursor.offset)
    (clean : (draft.readBody tag).faults = []) : (draft.readBody tag).Enclosed source := by
  unfold readBody at clean ⊢
  split at clean
  case h_1 body =>
    refine enclosed.add (Nat.le_refl _) (closed_singleton ⟨tag, _, stands, rfl, rfl, ?_⟩ closed_nil)
    exact .opening (bodyOf_eq_empty body) rfl
  case h_2 =>
    rw [faults_add, faults_note_eq_nil] at clean
    refine enclosed.addElement stands (rawContent_reaches _ _) (starts_of_rawContent _ _) ?_ _
      clean.1
    intro child member
    refine ⟨leaf_of_mem_run member, ?_⟩
    split at member
    · cases member
    · rw [List.mem_singleton.mp member]
      exact Nat.le_refl _
  case h_3 =>
    rw [faults_add, faults_note_eq_nil, List.append_eq_nil_iff] at clean
    refine enclosed.addElement stands (textContent_reaches _ _) (starts_of_textContent _ _) ?_ _
      clean.1.2
    intro child member
    have isIn := List.mem_reverse.mp member
    obtain ⟨⟨last, spread, upTo⟩, -⟩ := textContent_spread False tag.name draft.cursor
    exact ⟨leaf_of_mem_textContent _ _ child isIn,
      Nat.le_trans (spread.stop_le_of_mem (List.mem_map_of_mem isIn)) upTo⟩
  case h_4 body => exact enclosed.enter ⟨body, rfl, _, stands, Nat.le_refl _⟩ rfl

/-- An element ends well at once or is entered inside what is open. -/
theorem readElement_enclosed (enclosed : draft.Enclosed source)
    (starts : StartsConstruct draft.cursor.rest) (opens : draft.cursor.token.kind = .tagOpen)
    (clean : draft.readElement.faults = []) : draft.readElement.Enclosed source := by
  obtain ⟨tag, read, noFaults, known⟩ := exists_of_readElement_clean clean
  have stands := openTagAt_of_clean enclosed.reach starts opens read noFaults
  rw [← Cursor.token_start_of_no_text (startsConstruct_iff.mp starts),
    ← start_of_openTag read] at stands
  rw [readElement_eq read] at clean ⊢
  exact readBody_enclosed ((enclosed.moveTo (openTag_reaches _)).note _) stands clean

/-- Whatever node is read, what is open stays around it. -/
theorem readNode_enclosed (enclosed : draft.Enclosed source)
    (starts : StartsConstruct draft.cursor.rest) (more : draft.cursor.token.kind ≠ .endOfFile)
    (clean : draft.readNode.faults = []) : draft.readNode.Enclosed source := by
  rcases starts.kind more with opens | opens | opens | opens | opens | opens | opens | opens
  all_goals rw [readNode_eq, opens] at clean ⊢
  · exact readComment_enclosed enclosed clean
  · exact readElement_enclosed enclosed starts opens clean
  · exact absurd clean (faults_note_ne_nil _ _ _)
  · exact readExpression_enclosed enclosed clean
  · exact readBlock_enclosed enclosed clean
  · exact absurd clean draft.readStrayBraced_faults_ne_nil
  · exact absurd clean draft.readStrayBraced_faults_ne_nil
  · exact readSpecialTag_enclosed enclosed clean

/-- Scripts and styles are no nodes. -/
theorem Enclosed.congr {next : Draft} (enclosed : draft.Enclosed source)
    (reach : draft.cursor.Reaches next.cursor) (nodes : next.nodes = draft.nodes)
    (opened : next.opened = draft.opened) : next.Enclosed source where
  reach := enclosed.reach.trans reach
  nodes := nodes ▸ enclosed.nodes
  opened := opened ▸ enclosed.opened.mono reach.offset_le

/-- A script opens and closes nothing. -/
theorem readScript_enclosed (enclosed : draft.Enclosed source) :
    draft.readScript.Enclosed source := by
  refine enclosed.congr (readScript_passes draft).reach ?_ ?_
  all_goals
    unfold readScript
    simp only
    repeat' split
    all_goals rfl

/-- A style opens and closes nothing. -/
theorem readStyle_enclosed (enclosed : draft.Enclosed source) :
    draft.readStyle.Enclosed source := by
  refine enclosed.congr (readStyle_follows draft).reach ?_ ?_
  all_goals
    unfold readStyle
    simp only
    repeat' split
    all_goals rfl

/-- A step at top level keeps what has been read well ended. -/
theorem readTop_enclosed (enclosed : draft.Enclosed source)
    (starts : StartsConstruct draft.cursor.rest) (more : draft.cursor.token.kind ≠ .endOfFile)
    (clean : draft.readTop.faults = []) : draft.readTop.Enclosed source := by
  revert clean
  unfold readTop
  split
  · split
    · exact fun _ => readScript_enclosed enclosed
    · exact fun _ => readStyle_enclosed enclosed
    · exact readNode_enclosed enclosed starts more
  · exact readNode_enclosed enclosed starts more

section Opened

variable {outer : List Opened}

/-- The scopes inside an open element that a tag of another can close. -/
theorem role_of_scope {entry : OpenElement} {name : String}
    (role : entry.role = .ofName entry.tag.name entry.tag.selfClosing)
    (body : bodyOf entry.tag.name entry.tag.selfClosing = .markup)
    (scope : (Opened.element entry).scope = .element name) :
    name = entry.tag.name ∧ entry.role = .element entry.tag.name false := by
  have open_ := selfClosing_of_markup body
  obtain ⟨tag, isRole, children⟩ := entry
  cases isRole with
  | component => cases scope
  | special => cases scope
  | element other closes =>
    obtain ⟨named, closed⟩ := ofName_eq_element role.symm
    exact ⟨(Scope.element.inj scope).symm, congr (congrArg Role.element named)
      (closed.trans open_)⟩

/-- Where the next tag closes an element, it ends where that tag stands. -/
theorem elementEnds_of_implied {entry : OpenElement} {inside : Nat}
    (enclosed : draft.Enclosed source) (starts : StartsConstruct draft.cursor.rest)
    (isOpen : draft.opened = .element entry :: outer)
    (role : entry.role = .ofName entry.tag.name entry.tag.selfClosing)
    (body : bodyOf entry.tag.name entry.tag.selfClosing = .markup)
    (implied : (draft.atSibling || draft.atOuterClosing) = true) {next : Draft}
    (place : next.cursor = draft.cursor) (clean : next.run.faults = []) :
    ElementEnds source (outer.map Opened.scope) entry.tag entry.role entry.children.reverse inside
      draft.cursor.offset := by
  have scopes : draft.scopes = (Opened.element entry).scope :: outer.map Opened.scope := by
    rw [Draft.scopes, isOpen, List.map_cons]
  rcases Bool.or_eq_true_iff.mp implied with sibling | outside
  · obtain ⟨opens, closes⟩ := Bool.and_eq_true_iff.mp sibling
    obtain ⟨name, named, closes⟩ := (Option.any_eq_true _ _).mp closes
    rw [scopes] at closes
    cases scope : (Opened.element entry).scope with
    | component | block => rw [scope] at closes; cases closes
    | element current =>
      obtain ⟨rfl, isPlain⟩ := role_of_scope role body scope
      rw [scope] at closes
      have opens := beq_iff_eq.mp opens
      have noFaults := openTag_of_run_clean (place ▸ starts) (place ▸ opens) clean
      rw [place] at noFaults
      obtain ⟨tag, read⟩ := openTag_of_clean noFaults
      obtain rfl := Option.some.inj (named.symm.trans (openTag_name read))
      exact .sibling isPlain (openTagAt_of_clean enclosed.reach starts opens read noFaults)
        (List.contains_iff_mem.mp closes)
  · obtain ⟨opens, closes⟩ := Bool.and_eq_true_iff.mp outside
    obtain ⟨name, named, closes⟩ := (Option.any_eq_true _ _).mp closes
    rw [scopes] at closes
    cases scope : (Opened.element entry).scope with
    | component | block => rw [scope] at closes; cases closes
    | element current =>
      obtain ⟨rfl, isPlain⟩ := role_of_scope role body scope
      rw [scope] at closes
      obtain ⟨other, reaches⟩ := Bool.and_eq_true_iff.mp closes
      have noFaults := closingTag_of_run_clean (place ▸ starts)
        (place ▸ beq_iff_eq.mp opens) (place ▸ named) clean
      rw [place] at noFaults
      exact .outer isPlain (closingTagAt_of_clean enclosed.reach starts noFaults)
        (bne_iff_ne.mp other).symm (inReach_of_closesEnclosing reaches)

/-- An element that is closed ends well: at its own tag, or in front of one that may end it. -/
theorem closeElement_enclosed {entry : OpenElement} (enclosed : draft.Enclosed source)
    (starts : StartsConstruct draft.cursor.rest)
    (isOpen : draft.opened = .element entry :: outer)
    (clean : (draft.closeElement entry outer).run.faults = []) :
    (draft.closeElement entry outer).Enclosed source := by
  have inside := enclosed.opened
  rw [isOpen] at inside
  obtain ⟨⟨body, role, place, stands, before⟩, held, -⟩ := inside.1
  have scope := OpenElement.scope_node role
  have nextClean : (draft.closeElement entry outer).faults = [] :=
    List.suffix_nil.mp (clean ▸ run_faults _)
  unfold closeElement at clean nextClean ⊢
  split at clean
  case isTrue implied =>
    rw [if_pos implied]
    refine enclosed.leave isOpen (Nat.le_refl _) (scope _)
      (fun child member => List.mem_reverse.mp member) ⟨entry.tag, place, stands, role, rfl, ?_⟩
    exact elementEnds_of_implied enclosed starts isOpen role body implied (cursor_leave _ _ _) clean
  case isFalse own =>
    rw [if_neg own] at nextClean ⊢
    rw [faults_leave, faults_note_eq_nil] at nextClean
    have moved := (enclosed.moveTo (closingTag_reaches draft.cursor entry.tag.name)).note
      (closingTag draft.cursor entry.tag.name).faults
    refine moved.leave isOpen (Nat.le_refl _) (scope _)
      (fun child member => List.mem_reverse.mp member) ⟨entry.tag, place, stands, role, rfl, ?_⟩
    exact .closing before (fun child member => held child (List.mem_reverse.mp member))
      (closingTagAt_of_clean enclosed.reach starts nextClean.1)

/-- A block that goes on stays open. -/
theorem continueBlock_enclosed {entry : OpenBlock} (enclosed : draft.Enclosed source)
    (isOpen : draft.opened = .block entry :: outer)
    (clean : (draft.continueBlock entry outer).faults = []) :
    (draft.continueBlock entry outer).Enclosed source := by
  obtain ⟨braced, kind, code, found, isBranch⟩ := exists_branch_of_clean clean
  rw [continueBlock_of_branch found isBranch]
  have moved := enclosed.moveTo (Cursor.reaches_braced? found)
  have opened := moved.opened
  rw [show (draft.moveTo braced.next).opened = _ from isOpen] at opened
  obtain ⟨⟨opens, held, closed⟩, around⟩ := opened
  have subset := entry.held_continue draft.cursor.offset braced.next.offset
    (some ⟨braced.span.start, kind, code⟩)
  exact ⟨moved.reach, moved.nodes, ⟨opens, fun node member => held node (subset node member),
    closed.subset subset⟩, around⟩

/-- A block that is ended ends well, at its own tag. -/
theorem endBlock_enclosed {entry : OpenBlock} (enclosed : draft.Enclosed source)
    (starts : StartsConstruct draft.cursor.rest) (opens : draft.cursor.token.kind = .blockEnd)
    (isOpen : draft.opened = .block entry :: outer)
    (clean : (draft.endBlock entry outer).faults = []) :
    (draft.endBlock entry outer).Enclosed source := by
  have inside := enclosed.opened
  rw [isOpen] at inside
  obtain ⟨⟨before, held, -⟩, -⟩ := inside
  obtain ⟨braced, found, named⟩ := exists_end_of_clean clean
  rw [endBlock_of_end found named]
  obtain ⟨inBody, inBranches⟩ := entry.held_parts draft.cursor.offset
  have subset : ∀ node ∈ (entry.node draft.cursor.offset braced.next.offset).inside,
      node ∈ (Opened.block entry).held := by
    intro node member
    rcases List.mem_append.mp member with isIn | isIn
    · exact inBody node isIn
    · obtain ⟨branch, isBranch, isIn⟩ := List.mem_flatMap.mp isIn
      exact inBranches branch (List.mem_reverse.mp isBranch) node isIn
  refine (enclosed.moveTo (Cursor.reaches_braced? found)).leave isOpen (Nat.le_refl _) rfl subset
    ⟨draft.cursor.offset, ?_, before, fun node member => held node (subset node member)⟩
  exact endingTagAt_of_braced enclosed.reach starts opens found named

end Opened

/-- **One step.** If the reading goes on without faults, what has been read still ends well. -/
theorem step_enclosed {next : Draft} (enclosed : draft.Enclosed source)
    (stepped : draft.step = some next) (clean : next.run.faults = []) : next.Enclosed source := by
  have nextClean : next.faults = [] := List.suffix_nil.mp (clean ▸ run_faults next)
  cases step_eq_some_iff.mp stepped with
  | text => exact readText_enclosed enclosed List.takeWhile_append_dropWhile.symm
  | top noText _ more =>
    exact readTop_enclosed enclosed (startsConstruct_iff.mpr noText) more nextClean
  | close noText isOpen =>
    exact closeElement_enclosed enclosed (startsConstruct_iff.mpr noText) isOpen clean
  | child noText _ more | inner noText _ more =>
    exact readNode_enclosed enclosed (startsConstruct_iff.mpr noText) more nextClean
  | abandon => exact absurd nextClean abandonBlock_faults_ne_nil
  | branch _ isOpen => exact continueBlock_enclosed enclosed isOpen nextClean
  | finish noText isOpen opens =>
    exact endBlock_enclosed enclosed (startsConstruct_iff.mpr noText) opens isOpen nextClean

/-- **A whole run.** -/
theorem run_enclosed (enclosed : draft.Enclosed source) (clean : draft.run.faults = []) :
    draft.run.Enclosed source := by
  fun_induction run draft with
  | case1 draft => exact enclosed
  | case2 draft next stepped ih => exact ih (step_enclosed enclosed stepped clean) clean

end Enclosed

end Draft

/-- **Closing is sound.** Every node of a document that is read without faults stands inside some
elements and blocks, and it ends well inside them. -/
theorem read?_endsWell {source : Text} {document : Document}
    (done : read? source = .ok document) :
    ∀ node ∈ nodesPreorder document.template.nodes,
      (∃ scopes, Inside [] document.template.nodes scopes node) ∧
        ∀ scopes, Inside [] document.template.nodes scopes node → node.EndsWell source scopes := by
  obtain ⟨rfl, noFaults⟩ := Prod.mk.inj (read_eq_of_read? done)
  have enclosed := Draft.run_enclosed (Draft.start_enclosed source)
    (List.reverse_eq_nil_iff.mp noFaults)
  refine fun node member => ⟨Inside.exists_of_mem_preorder [] member, fun scopes inside => ?_⟩
  exact enclosed.nodes scopes node (inside.mono fun root isRoot => List.mem_reverse.mp isRoot)

/-- A paragraph and a rule, whose tag closes it. -/
def ruled : Text := ['<', 'p', '>', '<', 'h', 'r', '>']

/-- What is read of it: the paragraph ends where the rule starts. -/
def ruledDocument : Document :=
  ⟨none, none, none, ⟨[.element ⟨0, 3⟩ (.element "p" false) [] [],
    .element ⟨3, 7⟩ (.element "hr" false) [] []], ⟨0, 7⟩⟩⟩

/-- The document that is read of the paragraph and the rule. -/
theorem read?_ruled : read? ruled = .ok ruledDocument := by
  have ends (rest : Text) (offset : Nat) :
      attributes ⟨offset, '>' :: rest⟩ = ⟨[], [], ⟨offset, '>' :: rest⟩⟩ :=
    attributes_of_attribute?_eq_none (by rfl)
  have paragraph : openTag (Cursor.start ruled) =
      ⟨some ⟨0, "p", [], false⟩, [], ⟨3, ['<', 'h', 'r', '>']⟩⟩ := by
    have inside : (Cursor.start ruled).bump.bump = ⟨2, ['>', '<', 'h', 'r', '>']⟩ := by rfl
    unfold openTag
    simp only [inside, ends]
    rfl
  have rule : openTag ⟨3, ['<', 'h', 'r', '>']⟩ = ⟨some ⟨3, "hr", [], false⟩, [], ⟨7, []⟩⟩ := by
    have inside : (⟨3, ['<', 'h', 'r', '>']⟩ : Cursor).bump.bump = ⟨6, ['>']⟩ := by rfl
    unfold openTag
    simp only [inside, ends]
    rfl
  have opens : (Draft.start ruled).step = some ⟨⟨3, ['<', 'h', 'r', '>']⟩,
      [.element ⟨⟨0, "p", [], false⟩, .element "p" false, []⟩], [], none, none, none, []⟩ := by
    have first : (Draft.start ruled).step = some (Draft.start ruled).readElement := by rfl
    rw [first, Draft.readElement, show (Draft.start ruled).cursor = Cursor.start ruled from rfl,
      paragraph]
    rfl
  have closes : Draft.step ⟨⟨3, ['<', 'h', 'r', '>']⟩,
      [.element ⟨⟨0, "p", [], false⟩, .element "p" false, []⟩], [], none, none, none, []⟩ =
        some ⟨⟨3, ['<', 'h', 'r', '>']⟩, [], [.element ⟨0, 3⟩ (.element "p" false) [] []], none,
          none, none, []⟩ := by
    rfl
  have last : Draft.step ⟨⟨3, ['<', 'h', 'r', '>']⟩, [],
      [.element ⟨0, 3⟩ (.element "p" false) [] []], none, none, none, []⟩ =
        some ⟨⟨7, []⟩, [], ruledDocument.template.nodes.reverse, none, none, none, []⟩ := by
    have third (nodes : List Node) : Draft.step ⟨⟨3, ['<', 'h', 'r', '>']⟩, [], nodes, none, none,
        none, []⟩ = some (Draft.readElement ⟨⟨3, ['<', 'h', 'r', '>']⟩, [], nodes, none, none, none,
          []⟩) := by rfl
    rw [third, Draft.readElement, rule]
    rfl
  unfold read? Markup.read
  rw [Draft.run_of_step opens, Draft.run_of_step closes, Draft.run_of_step last,
    Draft.run_of_step_eq_none (by rfl)]
  rfl

/-- The paragraph and the rule end well, each at the place it stands. -/
theorem read?_endsWell_ruled : read? ruled = .ok ruledDocument ∧
    ∀ node ∈ nodesPreorder ruledDocument.template.nodes,
      (∃ scopes, Inside [] ruledDocument.template.nodes scopes node) ∧
        ∀ scopes, Inside [] ruledDocument.template.nodes scopes node →
          node.EndsWell ruled scopes :=
  ⟨read?_ruled, read?_endsWell read?_ruled⟩

end ClassHoist.Markup
