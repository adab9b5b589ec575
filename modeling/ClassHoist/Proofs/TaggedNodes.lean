import ClassHoist.Proofs.NodeNesting
import ClassHoist.Proofs.SessionAgreement

/-! # The tags of elements, scripts and the style

An element of a document stands from the start of its opening tag on, its attributes are those of
that tag, and everything inside it starts behind the start of the tag (`Node.Tagged`); a script or
the style likewise. Every step of reading keeps this, whatever faults it finds, because an element
is only ever made of its tag (`Draft.step_tagged`).
-/

namespace ClassHoist.Markup

variable {source : Text} {cursor last : Cursor} {draft : Draft} {node : Node} {outer : List Opened}

/-- The tag was read in the source, from where it starts up to `stop` at most. -/
def OpenTag.ReadIn (source : Text) (tag : OpenTag) (stop : Nat) : Prop :=
  ∃ cursor : Cursor, cursor.In source ∧ cursor.offset = tag.start ∧
    (openTag cursor).value = some tag ∧ (openTag cursor).next.offset ≤ stop

/-- The attributes are those of a tag that was read at the start of the span. -/
def Tagged (source : Text) (span : Span) (attributes : List Attribute) : Prop :=
  ∃ tag : OpenTag, tag.ReadIn source span.stop ∧ tag.start = span.start ∧
    tag.attributes = attributes

/-- An element stands from the start of its tag on, with all inside it behind that start. -/
def Node.Tagged (source : Text) : Node → Prop
  | .element span _ attributes children =>
    Markup.Tagged source span attributes ∧ ∀ child ∈ children, span.start < child.span.start
  | _ => True

/-- All elements in a node are made of their tags. -/
def Node.AllTagged (source : Text) (node : Node) : Prop :=
  ∀ inner ∈ node.preorder, inner.Tagged source

/-- A tag that was read up to some place was read up to every later one. -/
theorem OpenTag.ReadIn.mono {tag : OpenTag} {stop next : Nat} (read : tag.ReadIn source stop)
    (upTo : stop ≤ next) : tag.ReadIn source next := by
  obtain ⟨cursor, within, starts, value, ends⟩ := read
  exact ⟨cursor, within, starts, value, ends.trans upTo⟩

/-- A node is made of tags throughout if it is itself and everything inside it is. -/
theorem allTagged_of_inside (here : node.Tagged source)
    (inside : ∀ child ∈ node.inside, child.AllTagged source) : node.AllTagged source := by
  intro inner member
  rcases Node.mem_preorder.mp member with rfl | ⟨child, isChild, isIn⟩
  · exact here
  · exact inside child isChild inner isIn

/-- Nodes with nothing inside that end anywhere are no elements. -/
theorem Node.Leaf.allTagged (leaf : node.Leaf) : node.AllTagged source := by
  refine allTagged_of_inside ?_ (by rw [leaf.alone]; exact nofun)
  cases node with
  | element =>
    obtain ⟨_, _, ⟨before, more, -, split, -⟩, -⟩ := leaf.ends [] []
    exact absurd split.symm (List.append_ne_nil_of_right_ne_nil before (List.cons_ne_nil _ _))
  | text | comment | expression | tag | block => trivial

/-- A script or style stands from the start of its tag on. -/
theorem rawElement_tagged (within : cursor.In source)
    (noText : cursor.rest.takeWhile isTextChar = []) {raw : RawElement}
    (read : (rawElement cursor).value = some raw) : Tagged source raw.span raw.attributes := by
  unfold rawElement at read
  simp only at read
  split at read
  case h_1 => cases read
  case h_2 tag found =>
    have starts : cursor.offset = tag.start :=
      (start_of_openTag found).trans (Cursor.token_start_of_no_text noText) |>.symm
    have closes := (rawContent_reaches (openTag cursor).next tag.name).trans
      (closingTag_reaches (rawContent (openTag cursor).next tag.name).2.2 tag.name)
    split at read
    · obtain rfl := Option.some.inj read
      exact ⟨tag, ⟨cursor, within, starts, found, Nat.le_refl _⟩, rfl, rfl⟩
    · obtain rfl := Option.some.inj read
      exact ⟨tag, ⟨cursor, within, starts, found, closes.offset_le⟩, rfl, rfl⟩

/-- Everything that has been read is made of tags that were read. -/
structure Draft.Tagged (source : Text) (draft : Draft) : Prop where
  within : draft.cursor.In source
  tags : ∀ entry, .element entry ∈ draft.opened → entry.tag.ReadIn source draft.cursor.offset
  held : ∀ opened ∈ draft.opened, ∀ node ∈ opened.held, node.AllTagged source
  nodes : ∀ node ∈ draft.nodes, node.AllTagged source
  moduleScript : ∀ script ∈ draft.moduleScript, Markup.Tagged source script.span script.attributes
  instanceScript : ∀ script ∈ draft.instanceScript,
    Markup.Tagged source script.span script.attributes
  style : ∀ style ∈ draft.style, Markup.Tagged source style.span style.attributes

/-- An element can be closed at any later place. -/
theorem OpenElement.tagged_node {entry : OpenElement} {stop : Nat}
    (read : entry.tag.ReadIn source stop)
    (behind : ∀ child ∈ entry.children, entry.tag.start < child.span.start)
    (inside : ∀ child ∈ entry.children, child.AllTagged source) :
    (entry.node stop).AllTagged source := by
  apply allTagged_of_inside
  · exact ⟨⟨entry.tag, read, rfl, rfl⟩,
      fun child member => behind child (List.mem_reverse.mp member)⟩
  · exact fun child member => inside child (List.mem_reverse.mp member)

/-- A block can be closed at any place. -/
theorem OpenBlock.tagged_node {entry : OpenBlock}
    (inside : ∀ node ∈ (Opened.block entry).held, node.AllTagged source) (partStop stop : Nat) :
    (entry.node partStop stop).AllTagged source := by
  obtain ⟨inBody, inBranches⟩ := entry.held_parts partStop
  unfold OpenBlock.node
  apply allTagged_of_inside
  · trivial
  · intro child member
    rcases List.mem_append.mp member with isIn | isIn
    · exact inside child (inBody child isIn)
    · obtain ⟨branch, isBranch, isIn⟩ := List.mem_flatMap.mp isIn
      exact inside child (inBranches branch (List.mem_reverse.mp isBranch) child isIn)

namespace Draft

/-- In the beginning nothing has been read that would need a tag. -/
theorem start_tagged (source : Text) : (start source).Tagged source :=
  ⟨.refl _, nofun, nofun, nofun, nofun, nofun, nofun⟩

namespace Tagged

/-- Moving on keeps what has been read. -/
theorem moveTo (tagged : draft.Tagged source) (reach : draft.cursor.Reaches cursor) :
    (draft.moveTo cursor).Tagged source :=
  { tagged with
    within := tagged.within.trans reach
    tags := fun entry member => (tagged.tags entry member).mono reach.offset_le }

/-- Noting faults keeps what has been read. -/
theorem note (tagged : draft.Tagged source) (faults : List Fault) :
    (draft.note faults).Tagged source := { tagged with }

/-- A node made of its tags may be added. -/
theorem add (tagged : draft.Tagged source) (new : node.AllTagged source) :
    (draft.add node).Tagged source := by
  unfold Draft.add
  split
  case h_1 => exact { tagged with nodes := List.forall_mem_cons.mpr ⟨new, tagged.nodes⟩ }
  case h_2 innermost outer isOpen =>
    obtain ⟨inner, others⟩ := List.forall_mem_cons.mp (isOpen ▸ tagged.held)
    refine { tagged with tags := fun entry member => ?_, held := ?_ }
    · rcases List.mem_cons.mp member with isInner | isOuter
      · cases innermost with
        | block block => cases isInner
        | element inside =>
          cases isInner
          exact tagged.tags inside (isOpen ▸ List.mem_cons_self)
      · exact tagged.tags entry (isOpen ▸ List.mem_cons_of_mem _ isOuter)
    · refine List.forall_mem_cons.mpr ⟨?_, others⟩
      rw [Opened.held_add]
      exact List.forall_mem_cons.mpr ⟨new, inner⟩

/-- What is opened holds nothing yet. -/
theorem enter (tagged : draft.Tagged source) {opened : Opened} (empty : opened.held = [])
    (read : ∀ entry, opened = .element entry → entry.tag.ReadIn source draft.cursor.offset) :
    (draft.enter opened).Tagged source := by
  refine { tagged with tags := fun entry member => ?_, held := ?_ }
  · rcases List.mem_cons.mp member with isInner | isOuter
    · exact read entry isInner.symm
    · exact tagged.tags entry isOuter
  · refine List.forall_mem_cons.mpr ⟨?_, tagged.held⟩
    rw [empty]
    exact nofun

/-- An element or block may be left with a node made of its tags. -/
theorem leave (tagged : draft.Tagged source) {innermost : Opened}
    (isOpen : draft.opened = innermost :: outer) (new : node.AllTagged source) :
    (draft.leave outer node).Tagged source := by
  have left_ : ({ draft with opened := outer } : Draft).Tagged source :=
    { tagged with
      tags := fun entry member => tagged.tags entry (isOpen ▸ List.mem_cons_of_mem _ member)
      held := fun opened member => tagged.held opened (isOpen ▸ List.mem_cons_of_mem _ member) }
  exact left_.add new

/-- What the innermost open element or block holds. -/
theorem innermost (tagged : draft.Tagged source) {innermost : Opened}
    (isOpen : draft.opened = innermost :: outer) :
    ∀ node ∈ innermost.held, node.AllTagged source :=
  tagged.held innermost (isOpen ▸ List.mem_cons_self)

end Tagged

/-- Text has no tag. -/
theorem readText_tagged (tagged : draft.Tagged source) {text rest : Text}
    (split : draft.cursor.rest = text ++ rest) : (draft.readText text rest).Tagged source := by
  apply (tagged.moveTo (Cursor.reaches_past split)).add
  exact Node.Leaf.allTagged ⟨rfl, fun _ _ => trivial⟩

/-- A comment has no tag. -/
theorem readComment_tagged (tagged : draft.Tagged source) : draft.readComment.Tagged source := by
  have reach := (readComment_passes draft).reach
  unfold readComment at reach ⊢
  simp only at reach ⊢
  split at reach
  case h_1 =>
    rw [cursor_add, cursor_moveTo] at reach
    exact (tagged.moveTo reach).add (Node.Leaf.allTagged ⟨rfl, fun _ _ => trivial⟩)
  case h_2 => exact (tagged.moveTo reach).note _

/-- What an element has for content stands behind its tag. -/
theorem readBody_tagged (tagged : draft.Tagged source) {tag : OpenTag}
    (read : tag.ReadIn source draft.cursor.offset) (forward : tag.start < draft.cursor.offset) :
    (draft.readBody tag).Tagged source := by
  -- Leaves that are spread behind the tag make up an element with it, wherever that is closed.
  have element {nodes : List Node} {last stop : Nat} (upTo : draft.cursor.offset ≤ stop)
      (spread : Spread False draft.cursor.offset (nodes.map Node.span) last)
      (leaves : ∀ node ∈ nodes, node.Leaf) :
      (OpenElement.node ⟨tag, Role.ofName tag.name tag.selfClosing, nodes.reverse⟩ stop).AllTagged
        source := by
    apply OpenElement.tagged_node (read.mono upTo)
    · intro child member
      have placed := spread.lt_stop_of_mem (List.mem_map_of_mem (List.mem_reverse.mp member))
      exact Nat.lt_of_lt_of_le forward placed.1
    · exact fun child member => (leaves child (List.mem_reverse.mp member)).allTagged
  unfold readBody
  cases bodyOf tag.name tag.selfClosing with
  | empty =>
    have nothing : Spread False draft.cursor.offset (([] : List Node).map Node.span)
      draft.cursor.offset := Meets.refl _ _
    exact tagged.add (element (Nat.le_refl _) nothing nofun)
  | raw =>
    have reach := (rawContent_reaches draft.cursor tag.name).trans
      (closingTag_reaches (rawContent draft.cursor tag.name).2.2 tag.name)
    apply ((tagged.moveTo reach).note _).add
    have content := element reach.offset_le (rawContent_spread False draft.cursor tag.name)
      fun node member => leaf_of_mem_run member
    rwa [apply_ite List.reverse] at content
  | text =>
    have reach := (textContent_reaches tag.name draft.cursor).trans
      (closingTag_reaches (textContent tag.name draft.cursor).next tag.name)
    obtain ⟨last, spread, -⟩ := (textContent_spread False tag.name draft.cursor).1
    apply ((tagged.moveTo reach).note _).add
    exact element reach.offset_le spread (leaf_of_mem_textContent tag.name draft.cursor)
  | markup =>
    apply tagged.enter rfl
    intro entry isEntry
    cases isEntry
    exact read

/-- An element is made of the tag that was read. -/
theorem readElement_tagged (tagged : draft.Tagged source)
    (noText : draft.cursor.rest.takeWhile isTextChar = [])
    (more : draft.cursor.token.kind ≠ .endOfFile) : draft.readElement.Tagged source := by
  have reach := openTag_reaches draft.cursor
  have forward := Cursor.offset_lt_of_lt reach (openTag_lt more)
  cases read : (openTag draft.cursor).value with
  | none =>
    unfold readElement
    simp only [read]
    exact (tagged.moveTo reach).note _
  | some tag =>
    have starts : tag.start = draft.cursor.offset :=
      (start_of_openTag read).trans (Cursor.token_start_of_no_text noText)
    rw [readElement_eq read]
    apply readBody_tagged ((tagged.moveTo reach).note _)
    · exact ⟨draft.cursor, tagged.within, starts.symm, read, Nat.le_refl _⟩
    · exact starts ▸ forward

/-- A construct in braces keeps what has been read, if what it is used for does. -/
theorem readBraced_tagged (tagged : draft.Tagged source) {use : Braced → Draft → Draft}
    (used : ∀ braced (moved : Draft), moved.Tagged source → (use braced moved).Tagged source) :
    (draft.readBraced use).Tagged source := by
  unfold readBraced
  split
  case h_1 => exact (tagged.moveTo (Cursor.reaches_toEnd _)).note _
  case h_2 braced found => exact used braced _ (tagged.moveTo (Cursor.reaches_braced? found))

/-- A block has no tag of an element. -/
theorem readBlock_tagged (tagged : draft.Tagged source) : draft.readBlock.Tagged source := by
  apply readBraced_tagged tagged
  intro braced moved movedTagged
  simp only
  split
  · exact movedTagged.note _
  · exact movedTagged.enter rfl nofun

/-- A special tag has no tag of an element. -/
theorem readSpecialTag_tagged (tagged : draft.Tagged source) :
    draft.readSpecialTag.Tagged source := by
  apply readBraced_tagged tagged
  intro braced moved movedTagged
  simp only
  split
  · exact movedTagged.note _
  · exact movedTagged.add (Node.Leaf.allTagged ⟨rfl, fun _ _ => trivial⟩)

/-- Whatever node is read, it is made of the tag that was read. -/
theorem readNode_tagged (tagged : draft.Tagged source)
    (noText : draft.cursor.rest.takeWhile isTextChar = [])
    (more : draft.cursor.token.kind ≠ .endOfFile) : draft.readNode.Tagged source := by
  unfold readNode
  split
  case h_1 => exact readComment_tagged tagged
  case h_2 => exact readElement_tagged tagged noText more
  case h_3 => exact (tagged.moveTo (readStrayClosing_passes draft).reach).note _
  case h_4 => exact readBlock_tagged tagged
  case h_5 => exact readSpecialTag_tagged tagged
  case h_6 =>
    exact readBraced_tagged tagged fun braced moved movedTagged =>
      movedTagged.add (Node.Leaf.allTagged ⟨rfl, fun _ _ => trivial⟩)
  case h_7 | h_8 =>
    exact readBraced_tagged tagged fun braced moved movedTagged => movedTagged.note _
  case h_9 => exact tagged.moveTo (Cursor.reaches_bump _)

/-- A script or style is made of the tag that was read, if it is kept so. -/
theorem readRaw_tagged (tagged : draft.Tagged source)
    (noText : draft.cursor.rest.takeWhile isTextChar = [])
    {keep : RawElement → Span → Draft → Draft}
    (keeps : ∀ raw span next, Markup.Tagged source raw.span raw.attributes → next.Tagged source →
      (keep raw span next).Tagged source) : (draft.readRaw keep).Tagged source := by
  have next := (tagged.moveTo (rawElement_reaches draft.cursor)).note
    (rawElement draft.cursor).faults
  unfold readRaw
  simp only
  split
  case h_1 => exact next
  case h_2 found => exact keeps _ _ _ (rawElement_tagged tagged.within noText found) next

/-- A script that is kept is made of its tag. -/
theorem keepScript_tagged (raw : RawElement) (span : Span) (draft : Draft)
    (read : Markup.Tagged source raw.span raw.attributes) (tagged : draft.Tagged source) :
    (keepScript raw span draft).Tagged source := by
  unfold keepScript
  simp only
  split
  all_goals split
  · exact tagged.note _
  · exact { tagged with moduleScript := fun _ isSome => Option.some.inj isSome ▸ read }
  · exact tagged.note _
  · exact { tagged with instanceScript := fun _ isSome => Option.some.inj isSome ▸ read }

/-- A style that is kept is made of its tag. -/
theorem keepStyle_tagged (raw : RawElement) (span : Span) (draft : Draft)
    (read : Markup.Tagged source raw.span raw.attributes) (tagged : draft.Tagged source) :
    (keepStyle raw span draft).Tagged source := by
  unfold keepStyle
  split
  · exact tagged.note _
  · exact { tagged with style := fun _ isSome => Option.some.inj isSome ▸ read }

/-- A step at top level keeps what has been read made of its tags. -/
theorem readTop_tagged (tagged : draft.Tagged source)
    (noText : draft.cursor.rest.takeWhile isTextChar = [])
    (more : draft.cursor.token.kind ≠ .endOfFile) : draft.readTop.Tagged source := by
  unfold readTop
  split
  case isTrue =>
    split
    case h_1 => exact readRaw_tagged tagged noText keepScript_tagged
    case h_2 => exact readRaw_tagged tagged noText keepStyle_tagged
    case h_3 => exact readNode_tagged tagged noText more
  case isFalse => exact readNode_tagged tagged noText more

/-- A closed element is made of the tag that opened it. -/
theorem closeElement_tagged (tagged : draft.Tagged source)
    (spaced : draft.Spaced False draft.cursor.offset) {entry : OpenElement}
    (isOpen : draft.opened = .element entry :: outer) :
    (draft.closeElement entry outer).Tagged source := by
  have read := tagged.tags entry (isOpen ▸ List.mem_cons_self)
  have reach := closingTag_reaches draft.cursor entry.tag.name
  obtain ⟨⟨lo, starts, spread⟩, -⟩ := spaced.innermost isOpen
  have behind : ∀ child ∈ entry.children, entry.tag.start < child.span.start := by
    intro child member
    have placed := spread.lt_stop_of_mem (List.mem_map_of_mem (List.mem_reverse.mpr member))
    exact Nat.lt_of_lt_of_le starts placed.1
  unfold closeElement
  simp only
  split
  case isTrue =>
    exact tagged.leave isOpen (OpenElement.tagged_node read behind (tagged.innermost isOpen))
  case isFalse =>
    apply ((tagged.moveTo reach).note _).leave isOpen
    exact OpenElement.tagged_node (read.mono reach.offset_le) behind (tagged.innermost isOpen)

/-- Ending a block keeps the elements in it made of their tags. -/
theorem endBlock_tagged (tagged : draft.Tagged source) {entry : OpenBlock}
    (isOpen : draft.opened = .block entry :: outer) :
    (draft.endBlock entry outer).Tagged source := by
  have node := OpenBlock.tagged_node (tagged.innermost isOpen) draft.cursor.offset
  unfold endBlock
  simp only
  split
  case h_1 => exact ((tagged.moveTo (Cursor.reaches_toEnd _)).note _).leave isOpen (node _)
  case h_2 braced found =>
    exact ((tagged.moveTo (Cursor.reaches_braced? found)).note _).leave isOpen (node _)

/-- A block goes on with its next part. -/
theorem Tagged.continued (tagged : draft.Tagged source) {entry : OpenBlock}
    (isOpen : draft.opened = .block entry :: outer) (stop : Nat) (branch : Option BranchStart) :
    (draft.nextPart entry outer stop branch).Tagged source := by
  have inside := tagged.innermost isOpen
  refine { tagged with tags := fun other member => ?_, held := ?_ }
  · rcases List.mem_cons.mp member with isInner | isOuter
    · cases isInner
    · exact tagged.tags other (isOpen ▸ List.mem_cons_of_mem _ isOuter)
  · refine List.forall_mem_cons.mpr ⟨fun node member => ?_, fun opened member =>
      tagged.held opened (isOpen ▸ List.mem_cons_of_mem _ member)⟩
    exact inside node (entry.held_continue stop draft.cursor.offset branch node member)

/-- Going on with a block keeps the elements in it made of their tags. -/
theorem continueBlock_tagged (tagged : draft.Tagged source) {entry : OpenBlock}
    (isOpen : draft.opened = .block entry :: outer) :
    (draft.continueBlock entry outer).Tagged source := by
  have node := OpenBlock.tagged_node (tagged.innermost isOpen) draft.cursor.offset
  unfold continueBlock
  simp only
  split
  case h_1 => exact ((tagged.moveTo (Cursor.reaches_toEnd _)).note _).leave isOpen (node _)
  case h_2 braced found =>
    have moved := tagged.moveTo (Cursor.reaches_braced? found)
    split
    case h_1 => exact moved.continued isOpen draft.cursor.offset _
    case h_2 => exact (moved.note _).continued isOpen draft.cursor.offset none

/-- **One step.** What has been read is still made of its tags. -/
theorem step_tagged {next : Draft} (tagged : draft.Tagged source)
    (spaced : draft.Spaced False draft.cursor.offset) (stepped : draft.step = some next) :
    next.Tagged source := by
  cases step_eq_some_iff.mp stepped with
  | text => exact readText_tagged tagged List.takeWhile_append_dropWhile.symm
  | top noText _ more => exact readTop_tagged tagged noText more
  | close _ isOpen => exact closeElement_tagged tagged spaced isOpen
  | child noText _ more | inner noText _ more => exact readNode_tagged tagged noText more
  | abandon _ isOpen =>
    exact (tagged.note _).leave isOpen (OpenBlock.tagged_node (tagged.innermost isOpen) _ _)
  | branch _ isOpen => exact continueBlock_tagged tagged isOpen
  | finish _ isOpen => exact endBlock_tagged tagged isOpen

/-- **A whole run.** -/
theorem run_tagged (tagged : draft.Tagged source)
    (spaced : draft.Spaced False draft.cursor.offset) : draft.run.Tagged source := by
  fun_induction run draft with
  | case1 draft => exact tagged
  | case2 draft next stepped ih =>
    exact ih (step_tagged tagged spaced stepped) (step_spaced spaced stepped False.elim)

end Draft

/-- Everything in a document is made of the tags that were read in its source. -/
structure Document.Tagged (source : Text) (document : Document) : Prop where
  nodes : ∀ node ∈ nodesPreorder document.template.nodes, node.Tagged source
  moduleScript : ∀ script ∈ document.moduleScript,
    Markup.Tagged source script.span script.attributes
  instanceScript : ∀ script ∈ document.instanceScript,
    Markup.Tagged source script.span script.attributes
  style : ∀ style ∈ document.style, Markup.Tagged source style.span style.attributes

/-- **Every document is made of its tags**, with faults or without. -/
theorem tagged_read (source : Text) : (read source).1.Tagged source := by
  have tagged := Draft.run_tagged (Draft.start_tagged source) (Draft.start_spaced False source)
  refine ⟨fun node member => ?_, tagged.moduleScript, tagged.instanceScript, tagged.style⟩
  obtain ⟨root, isRoot, isIn⟩ := mem_nodesPreorder.mp member
  exact tagged.nodes root (List.mem_reverse.mp isRoot) node isIn

end ClassHoist.Markup
