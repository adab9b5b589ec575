import ClassHoist.Proofs.Shifted
import ClassHoist.Proofs.TopLevel

/-! # Reading on behind a document

What has been read of a source at top level has no influence on what is read behind it, except that
a script or style of which there is one already is a fault. So a reading can be put on top of
another one (`Draft.onto`), and each step does the same there (`Draft.step_onto`).
-/

namespace ClassHoist.Markup

section Shift

variable (length : Nat)

/-- The start of a branch further on. -/
def BranchStart.shift (branch : BranchStart) : BranchStart :=
  { branch with start := length + branch.start }

/-- The part of a block further on. -/
def BlockPart.shift : BlockPart → BlockPart
  | body => body
  | later first branches branch => later (first.mapSpans (.shift length))
      (branches.map (Branch.mapSpans (.shift length))) (branch.map (BranchStart.shift length))

/-- The open element further on. -/
def OpenElement.shift (entry : OpenElement) : OpenElement :=
  ⟨entry.tag.shift length, entry.role, entry.children.map (Node.mapSpans (.shift length))⟩

/-- The open block further on. -/
def OpenBlock.shift (entry : OpenBlock) : OpenBlock :=
  ⟨entry.kind, entry.header.mapSpans (.shift length), entry.part.shift length,
    length + entry.start, entry.nodes.map (Node.mapSpans (.shift length))⟩

/-- What is open further on. -/
def Opened.shift : Opened → Opened
  | element entry => element (entry.shift length)
  | block entry => block (entry.shift length)

/-- Further on, an open element or block closes the same tags. -/
theorem Opened.scope_shift (opened : Opened) : (opened.shift length).scope = opened.scope := by
  cases opened with
  | element entry =>
    obtain ⟨tag, role, children⟩ := entry
    cases role <;> rfl
  | block entry => rfl

/-- Adding a node commutes with moving further on. -/
theorem Opened.add_shift (opened : Opened) (node : Node) :
    (opened.shift length).add (node.mapSpans (.shift length)) =
      (opened.add node).shift length := by
  cases opened <;> rfl

/-- An element closed further on is the same element further on. -/
theorem OpenElement.node_shift (entry : OpenElement) (stop : Nat) :
    (entry.shift length).node (length + stop) = (entry.node stop).mapSpans (.shift length) := by
  simp only [node, shift, Node.mapSpans_element, List.map_reverse]
  rfl

/-- A block has the same parts further on. -/
theorem OpenBlock.parts_shift (entry : OpenBlock) (stop : Nat) :
    (entry.shift length).parts (length + stop) =
      ((entry.parts stop).1.mapSpans (.shift length),
        (entry.parts stop).2.map (Branch.mapSpans (.shift length))) := by
  obtain ⟨kind, header, part, start, nodes⟩ := entry
  cases part with
  | body =>
    simp only [parts, shift, BlockPart.shift, Fragment.mapSpans, List.map_reverse]
    rfl
  | later body branches branch =>
    cases branch with
    | none => rfl
    | some branch =>
      simp only [parts, shift, BlockPart.shift, Option.map_some, List.map_cons, Branch.mapSpans,
        Fragment.mapSpans, List.map_reverse]
      rfl

/-- A block ended further on is the same block further on. -/
theorem OpenBlock.node_shift (entry : OpenBlock) (partStop stop : Nat) :
    (entry.shift length).node (length + partStop) (length + stop) =
      (entry.node partStop stop).mapSpans (.shift length) := by
  simp only [node, parts_shift, Node.mapSpans_block, List.map_reverse]
  rfl

end Shift

namespace Draft

/-- What has been read on top of what was read before it, which is of the length. -/
def onto (draft base : Draft) (length : Nat) : Draft where
  cursor := draft.cursor.shift length
  opened := draft.opened.map (Opened.shift length)
  nodes := draft.nodes.map (Node.mapSpans (.shift length)) ++ base.nodes
  moduleScript := base.moduleScript.or (draft.moduleScript.map (Script.mapSpans (.shift length)))
  instanceScript :=
    base.instanceScript.or (draft.instanceScript.map (Script.mapSpans (.shift length)))
  style := base.style.or (draft.style.map (Style.mapSpans (.shift length)))
  faults := draft.faults.map (Fault.mapSpans (.shift length)) ++ base.faults

variable {base : Draft} {length : Nat} (draft : Draft)

/-- On top of another draft, reading stands further on in the source. -/
theorem cursor_onto : (draft.onto base length).cursor = draft.cursor.shift length := rfl

/-- On top of another draft, the same elements and blocks are open. -/
theorem opened_onto :
    (draft.onto base length).opened = draft.opened.map (Opened.shift length) := rfl

/-- Moving to a place further on is the same move on top of the other draft. -/
theorem moveTo_onto (cursor : Cursor) :
    (draft.onto base length).moveTo (cursor.shift length) =
      (draft.moveTo cursor).onto base length := rfl

/-- Faults noted on top of another draft are the same ones further on. -/
theorem note_onto (faults : List Fault) :
    (draft.onto base length).note (faults.map (Fault.mapSpans (.shift length))) =
      (draft.note faults).onto base length := by
  simp only [note, onto, List.map_append, List.map_reverse, List.append_assoc]

/-- A node is added on top of another draft as without it. -/
theorem add_onto (node : Node) :
    (draft.onto base length).add (node.mapSpans (.shift length)) =
      (draft.add node).onto base length := by
  unfold add
  cases isOpen : draft.opened with
  | nil => simp only [opened_onto, isOpen, List.map_nil]; rfl
  | cons innermost outer =>
    simp only [opened_onto, isOpen, List.map_cons, Opened.add_shift]
    rfl

/-- An element or block is left on top of another draft as without it. -/
theorem leave_onto (outer : List Opened) (node : Node) :
    (draft.onto base length).leave (outer.map (Opened.shift length))
      (node.mapSpans (.shift length)) = (draft.leave outer node).onto base length :=
  add_onto { draft with opened := outer } node

/-- Text is read on top of another draft as without it. -/
theorem readText_onto (text rest : Text) :
    (draft.onto base length).readText text rest = (draft.readText text rest).onto base length := by
  have moved : (draft.onto base length).cursor.past text rest =
      (draft.cursor.past text rest).shift length := draft.cursor.past_shift length text rest
  unfold readText
  simp only [moved, moveTo_onto]
  exact add_onto (draft.moveTo _) (.text ⟨_, _⟩ _)

/-- A comment is read on top of another draft as without it. -/
theorem readComment_onto :
    (draft.onto base length).readComment = draft.readComment.onto base length := by
  simp only [readComment, cursor_onto, Cursor.bump_shift, Cursor.token_shift, Token.shift]
  have rest : (draft.cursor.bump.shift length).rest = draft.cursor.bump.rest := rfl
  rw [rest]
  split
  · rw [Cursor.past_shift, moveTo_onto]
    rw [← add_onto]
    rfl
  · rw [Cursor.toEnd_shift, moveTo_onto]
    exact note_onto (draft.moveTo _) [⟨_, _⟩]

/-- A stray closing tag is passed over on top of another draft as without it. -/
theorem readStrayClosing_onto :
    (draft.onto base length).readStrayClosing = draft.readStrayClosing.onto base length := by
  simp only [readStrayClosing, cursor_onto, Cursor.bump_shift, Cursor.token_shift, Token.shift,
    Cursor.tagName?_shift]
  have place : (if draft.cursor.tagName?.isSome then draft.cursor.bump.bump.shift length else
      draft.cursor.bump.shift length) = (if draft.cursor.tagName?.isSome then
        draft.cursor.bump.bump else draft.cursor.bump).shift length := by
    split <;> rfl
  rw [place, Cursor.skip_shift, moveTo_onto]
  exact note_onto (draft.moveTo _) [⟨_, _⟩]

/-- A construct in braces is read on top of another draft as without it, if what it is used for is.
-/
theorem readBraced_onto {use use' : Braced → Draft → Draft}
    (uses : ∀ braced moved, use' (braced.shift length) (moved.onto base length) =
      (use braced moved).onto base length) :
    (draft.onto base length).readBraced use' = (draft.readBraced use).onto base length := by
  simp only [readBraced, cursor_onto, Cursor.braced?_shift]
  cases draft.cursor.braced? with
  | none =>
    simp only [Option.map_none, Cursor.toEnd_shift, Cursor.unclosedBrace_shift, moveTo_onto]
    exact note_onto (draft.moveTo _) [_]
  | some braced =>
    simp only [Option.map_some]
    exact uses braced (draft.moveTo braced.next)

/-- A block is opened on top of another draft as without it. -/
theorem readBlock_onto :
    (draft.onto base length).readBlock = draft.readBlock.onto base length := by
  refine readBraced_onto draft fun braced moved => ?_
  simp only [Braced.withKeyword_shift]
  cases BlockKind.ofKeyword? braced.withKeyword.1 with
  | none => exact note_onto moved [⟨.unknownBlock _, braced.span⟩]
  | some kind => rfl

/-- A special tag is read on top of another draft as without it. -/
theorem readSpecialTag_onto :
    (draft.onto base length).readSpecialTag = draft.readSpecialTag.onto base length := by
  refine readBraced_onto draft fun braced moved => ?_
  simp only [Braced.withKeyword_shift]
  cases SpecialTag.ofKeyword? braced.withKeyword.1 with
  | none => exact note_onto moved [⟨.unknownTag _, braced.span⟩]
  | some kind => exact add_onto moved (.tag kind _)

/-- An expression is read on top of another draft as without it. -/
theorem readExpression_onto :
    (draft.onto base length).readExpression = draft.readExpression.onto base length := by
  refine readBraced_onto draft fun braced moved => ?_
  rw [Braced.embedded_shift]
  exact add_onto moved (.expression braced.embedded)

/-- The text of a construct in braces is the same further on. -/
theorem bracedText_shift (cursor : Cursor) (braced : Braced) :
    bracedText (cursor.shift length) (braced.shift length) = bracedText cursor braced := by
  unfold bracedText
  rw [Cursor.token_shift]
  rfl

/-- A construct in braces that stands alone is passed over on top of another draft as without it. -/
theorem readStrayBraced_onto :
    (draft.onto base length).readStrayBraced = draft.readStrayBraced.onto base length := by
  unfold readStrayBraced
  refine readBraced_onto draft fun braced moved => ?_
  simp only [cursor_onto, bracedText_shift, Cursor.token_shift]
  exact note_onto moved [⟨.outsideBlock _, draft.cursor.token.span⟩]

/-- What follows an opening tag is read on top of another draft as without it. -/
theorem readBody_onto (tag : OpenTag) :
    (draft.onto base length).readBody (tag.shift length) =
      (draft.readBody tag).onto base length := by
  have name : (tag.shift length).name = tag.name := rfl
  have selfClosing : (tag.shift length).selfClosing = tag.selfClosing := rfl
  unfold readBody
  rw [name, selfClosing]
  cases bodyOf tag.name tag.selfClosing with
  | empty =>
    simp only
    rw [← add_onto, ← OpenElement.node_shift]
    rfl
  | raw =>
    simp only [cursor_onto, rawContent_shift, closingTag_shift, Reading.shift, moveTo_onto,
      note_onto]
    rw [← add_onto, ← OpenElement.node_shift]
    unfold OpenElement.shift
    split <;> rfl
  | text =>
    simp only [cursor_onto, textContent_shift, closingTag_shift, Reading.shift, moveTo_onto,
      ← List.map_append, note_onto]
    rw [← add_onto, ← OpenElement.node_shift]
    simp only [OpenElement.shift, List.map_reverse]
    rfl
  | markup => rfl

/-- The faults of an unknown special element are the same further on. -/
theorem unknownFaults_shift (tag : OpenTag) :
    unknownFaults (tag.shift length) =
      (unknownFaults tag).map (Fault.mapSpans (.shift length)) := by
  unfold unknownFaults
  have name : (tag.shift length).name = tag.name := rfl
  rw [name]
  split
  · simp only [OpenTag.shift, List.map_cons, List.map_nil, Fault.mapSpans, Span.shift,
      Nat.add_assoc]
  · rfl

/-- An element is read on top of another draft as without it. -/
theorem readElement_onto :
    (draft.onto base length).readElement = draft.readElement.onto base length := by
  have shifted := openTag_shift length draft.cursor
  cases read : (openTag draft.cursor).value with
  | none =>
    unfold readElement
    simp only [cursor_onto, shifted, Reading.shift, read, Option.map_none, moveTo_onto, note_onto]
  | some tag =>
    have read' : (openTag (draft.onto base length).cursor).value = some (tag.shift length) := by
      rw [cursor_onto, shifted, Reading.shift, read, Option.map_some]
    rw [readElement_eq read, readElement_eq read', ← readBody_onto, ← note_onto, ← moveTo_onto,
      List.map_append, unknownFaults_shift, cursor_onto, shifted]
    rfl

/-- A node is read on top of another draft as without it. -/
theorem readNode_onto :
    (draft.onto base length).readNode = draft.readNode.onto base length := by
  unfold readNode
  rw [cursor_onto, Cursor.token_shift]
  simp only [Token.shift]
  split
  · exact readComment_onto draft
  · exact readElement_onto draft
  · exact readStrayClosing_onto draft
  · exact readBlock_onto draft
  · exact readSpecialTag_onto draft
  · exact readExpression_onto draft
  · exact readStrayBraced_onto draft
  · exact readStrayBraced_onto draft
  · rw [Cursor.bump_shift, moveTo_onto]

/-- No script or style of one kind has been read in both. -/
structure SlotsApart (base draft : Draft) : Prop where
  moduleScript : base.moduleScript = none ∨ draft.moduleScript = none
  instanceScript : base.instanceScript = none ∨ draft.instanceScript = none
  style : base.style = none ∨ draft.style = none

/-- A script or style that has been read stays. -/
structure Keeps (draft next : Draft) : Prop where
  moduleScript : next.moduleScript = none → draft.moduleScript = none
  instanceScript : next.instanceScript = none → draft.instanceScript = none
  style : next.style = none → draft.style = none

/-- If scripts and styles stay apart after a step, they are apart before it. -/
theorem SlotsApart.of_keeps {draft next : Draft} (apart : SlotsApart base next)
    (keeps : draft.Keeps next) : SlotsApart base draft :=
  ⟨apart.moduleScript.imp_right keeps.moduleScript,
    apart.instanceScript.imp_right keeps.instanceScript, apart.style.imp_right keeps.style⟩

/-- A script is kept on top of another draft as without it, unless there is one of its kind in both.
-/
theorem keepScript_onto (raw : RawElement) (span : Span)
    (apart : SlotsApart base (keepScript raw span draft)) :
    keepScript (raw.shift length) (span.shift length) (draft.onto base length) =
      (keepScript raw span draft).onto base length := by
  have again : [(⟨.duplicate "script", span.shift length⟩ : Fault)] =
    [(⟨.duplicate "script", span⟩ : Fault)].map (Fault.mapSpans (.shift length)) := rfl
  unfold keepScript at apart ⊢
  rw [ofRaw_shift]
  have context : ((Script.ofRaw raw).mapSpans (.shift length)).context =
    (Script.ofRaw raw).context := rfl
  simp only at apart
  simp only [context, again, note_onto]
  generalize (Script.ofRaw raw).context = context at apart ⊢
  cases context with
  | perModule =>
    cases isRead : draft.moduleScript with
    | some script =>
      simp only [onto, isRead, Option.map_some, Option.isSome_or, Option.isSome_some, Bool.or_true,
        ↓reduceIte]
    | none =>
      rw [isRead] at apart
      have free := apart.moduleScript.resolve_right (Option.some_ne_none _)
      simp only [onto, isRead, free]
      rfl
  | perInstance =>
    cases isRead : draft.instanceScript with
    | some script =>
      simp only [onto, isRead, Option.map_some, Option.isSome_or, Option.isSome_some, Bool.or_true,
        ↓reduceIte]
    | none =>
      rw [isRead] at apart
      have free := apart.instanceScript.resolve_right (Option.some_ne_none _)
      simp only [onto, isRead, free]
      rfl

/-- A style is kept on top of another draft as without it, unless there is one in both. -/
theorem keepStyle_onto (raw : RawElement) (span : Span)
    (apart : SlotsApart base (keepStyle raw span draft)) :
    keepStyle (raw.shift length) (span.shift length) (draft.onto base length) =
      (keepStyle raw span draft).onto base length := by
  have again : [(⟨.duplicate "style", span.shift length⟩ : Fault)] =
    [(⟨.duplicate "style", span⟩ : Fault)].map (Fault.mapSpans (.shift length)) := rfl
  unfold keepStyle at apart ⊢
  simp only [again, note_onto, styleOfRaw_shift]
  cases isRead : draft.style with
  | some style =>
    simp only [onto, isRead, Option.map_some, Option.isSome_or, Option.isSome_some, Bool.or_true,
      ↓reduceIte]
  | none =>
    rw [isRead] at apart
    have free := apart.style.resolve_right (Option.some_ne_none _)
    simp only [onto, isRead, free]
    rfl

/-- A script or style is read on top of another draft as without it, if it is kept in the same way.
-/
theorem readRaw_onto {keep : RawElement → Span → Draft → Draft}
    (keeps : ∀ raw span moved, SlotsApart base (keep raw span moved) →
      keep (raw.shift length) (span.shift length) (moved.onto base length) =
        (keep raw span moved).onto base length)
    (apart : SlotsApart base (draft.readRaw keep)) :
    (draft.onto base length).readRaw keep = (draft.readRaw keep).onto base length := by
  unfold readRaw at apart ⊢
  simp only [cursor_onto, rawElement_shift, Reading.shift, moveTo_onto, note_onto,
    Cursor.token_shift, Token.shift]
  cases read : (rawElement draft.cursor).value with
  | none => rfl
  | some raw =>
    simp only [read] at apart
    exact keeps raw _ _ apart

/-- At top level a step does the same on top of another draft, as long as scripts and styles stay
apart. -/
theorem readTop_onto (apart : SlotsApart base draft.readTop) :
    (draft.onto base length).readTop = draft.readTop.onto base length := by
  unfold readTop at apart ⊢
  simp only [cursor_onto, Cursor.token_shift, Token.shift, Cursor.tagName?_shift]
  split
  case isTrue opens =>
    simp only [opens, ↓reduceIte] at apart
    split
    case h_1 named =>
      simp only [named] at apart
      exact readRaw_onto draft (fun raw span moved => keepScript_onto moved raw span) apart
    case h_2 named =>
      simp only [named] at apart
      exact readRaw_onto draft (fun raw span moved => keepStyle_onto moved raw span) apart
    case h_3 => exact readNode_onto draft
  case isFalse => exact readNode_onto draft

/-- On top of another draft, the same elements enclose the place. -/
theorem scopes_onto : (draft.onto base length).scopes = draft.scopes := by
  simp only [scopes, opened_onto, List.map_map]
  exact List.map_congr_left fun opened _ => opened.scope_shift length

/-- A sibling that closes the element is seen on top of another draft as without it. -/
theorem atSibling_onto : (draft.onto base length).atSibling = draft.atSibling := by
  simp only [atSibling, cursor_onto, Cursor.token_shift, Token.shift, Cursor.tagName?_shift,
    scopes_onto]

/-- The closing tag of an outer element is seen on top of another draft as without it. -/
theorem atOuterClosing_onto : (draft.onto base length).atOuterClosing = draft.atOuterClosing := by
  simp only [atOuterClosing, cursor_onto, Cursor.token_shift, Token.shift, Cursor.tagName?_shift,
    scopes_onto]

/-- An element is closed on top of another draft as without it. -/
theorem closeElement_onto (entry : OpenElement) (outer : List Opened) :
    (draft.onto base length).closeElement (entry.shift length)
      (outer.map (Opened.shift length)) = (draft.closeElement entry outer).onto base length := by
  unfold closeElement
  simp only [atSibling_onto, atOuterClosing_onto, cursor_onto, closingTag_shift, Reading.shift]
  split
  · rw [← leave_onto, ← OpenElement.node_shift]
    rfl
  · rw [← leave_onto, ← OpenElement.node_shift, ← note_onto]
    rfl

/-- A block is given up on top of another draft as without it. -/
theorem abandonBlock_onto (entry : OpenBlock) (outer : List Opened) :
    (draft.onto base length).abandonBlock (entry.shift length)
      (outer.map (Opened.shift length)) = (draft.abandonBlock entry outer).onto base length := by
  unfold abandonBlock
  simp only [cursor_onto, Cursor.token_shift]
  rw [← leave_onto, ← OpenBlock.node_shift, ← note_onto]
  rfl

/-- The header of a branch is the same further on. -/
theorem branchHeader_shift (braced : Braced) :
    branchHeader (braced.shift length) = branchHeader braced := by
  unfold branchHeader
  rw [Braced.withKeyword_shift]
  rfl

/-- A block goes on on top of another draft as without it. -/
theorem continueBlock_onto (entry : OpenBlock) (outer : List Opened) :
    (draft.onto base length).continueBlock (entry.shift length)
      (outer.map (Opened.shift length)) = (draft.continueBlock entry outer).onto base length := by
  unfold continueBlock
  simp only [cursor_onto, Cursor.braced?_shift]
  cases draft.cursor.braced? with
  | none =>
    simp only [Option.map_none, Cursor.toEnd_shift, Cursor.unclosedBrace_shift]
    rw [← leave_onto, ← OpenBlock.node_shift, ← note_onto]
    rfl
  | some braced =>
    simp only [Option.map_some, branchHeader_shift, bracedText_shift]
    have parts := OpenBlock.parts_shift length entry draft.cursor.offset
    have kind : (entry.shift length).kind = entry.kind := rfl
    have offset : (draft.cursor.shift length).offset = length + draft.cursor.offset := rfl
    simp only [kind, offset, parts]
    cases (branchHeader braced).filter (entry.kind.accepts ·.1) with
    | some branch => rfl
    | none => rfl

/-- A block is ended on top of another draft as without it. -/
theorem endBlock_onto (entry : OpenBlock) (outer : List Opened) :
    (draft.onto base length).endBlock (entry.shift length)
      (outer.map (Opened.shift length)) = (draft.endBlock entry outer).onto base length := by
  unfold endBlock
  simp only [cursor_onto, Cursor.braced?_shift]
  cases draft.cursor.braced? with
  | none =>
    simp only [Option.map_none, Cursor.toEnd_shift, Cursor.unclosedBrace_shift]
    rw [← leave_onto, ← OpenBlock.node_shift, ← note_onto]
    rfl
  | some braced =>
    simp only [Option.map_some, Cursor.token_shift]
    rw [← leave_onto, ← OpenBlock.node_shift, ← note_onto]
    have inner : (braced.shift length).inner = braced.inner := rfl
    have kind : (entry.shift length).kind = entry.kind := rfl
    rw [inner, kind]
    split <;> rfl

/-- **A step on top of what was read before.** It is the same step. -/
theorem step_onto {draft next : Draft} (stepped : draft.step = some next)
    (apart : SlotsApart base next) :
    (draft.onto base length).step = some (next.onto base length) := by
  have kind : (draft.onto base length).cursor.token.kind = draft.cursor.token.kind := by
    rw [cursor_onto, Cursor.token_shift]
    rfl
  have openedAs {opened : List Opened} (isOpen : draft.opened = opened) :
      (draft.onto base length).opened = opened.map (·.shift length) := by rw [opened_onto, isOpen]
  rw [step_eq_some_iff]
  cases step_eq_some_iff.mp stepped with
  | text someText =>
    rw [← readText_onto]
    exact .text someText
  | top noText isOpen more =>
    rw [← readTop_onto draft apart]
    exact .top noText (openedAs isOpen) (kind ▸ more)
  | close noText isOpen ends =>
    rw [← closeElement_onto]
    refine .close noText (openedAs isOpen) ?_
    rwa [kind, atSibling_onto]
  | child noText isOpen more notClosing noSibling =>
    rw [← readNode_onto]
    refine .child noText (openedAs isOpen) (kind ▸ more) (kind ▸ notClosing) ?_
    rwa [atSibling_onto]
  | abandon noText isOpen ends =>
    rw [← abandonBlock_onto]
    exact .abandon noText (openedAs isOpen) (kind ▸ ends)
  | branch noText isOpen opens =>
    rw [← continueBlock_onto]
    exact .branch noText (openedAs isOpen) (kind.trans opens)
  | finish noText isOpen opens =>
    rw [← endBlock_onto]
    exact .finish noText (openedAs isOpen) (kind.trans opens)
  | inner noText isOpen more notClosing notNext notEnd =>
    rw [← readNode_onto]
    exact .inner noText (openedAs isOpen) (kind ▸ more) (kind ▸ notClosing) (kind ▸ notNext)
      (kind ▸ notEnd)

/-- Reading ends on top of what was read before where it ends without that. -/
theorem step_onto_eq_none {draft : Draft} (ended : draft.step = none) :
    (draft.onto base length).step = none := by
  have none : (draft.onto base length).cursor.rest = [] :=
    show draft.cursor.rest = [] from rest_of_step_eq_none ended
  refine step_eq_none_of_ended ?_ none
  rw [opened_onto, opened_of_step_eq_none ended, List.map_nil]

theorem Keeps.refl (draft : Draft) : draft.Keeps draft := ⟨id, id, id⟩

theorem Keeps.trans {first second third : Draft} (left : first.Keeps second)
    (right : second.Keeps third) : first.Keeps third :=
  ⟨left.moduleScript ∘ right.moduleScript, left.instanceScript ∘ right.instanceScript,
    left.style ∘ right.style⟩

/-- The scripts and the style read so far. -/
def slots (draft : Draft) : Option Script × Option Script × Option Style :=
  (draft.moduleScript, draft.instanceScript, draft.style)

/-- Where no script or style is read, all are kept. -/
theorem keeps_of_slots {next : Draft} (same : next.slots = draft.slots) : draft.Keeps next := by
  obtain ⟨moduleScript, rest⟩ := Prod.mk.inj same
  obtain ⟨instanceScript, style⟩ := Prod.mk.inj rest
  exact ⟨fun none => moduleScript ▸ none, fun none => instanceScript ▸ none,
    fun none => style ▸ none⟩

@[simp] theorem slots_moveTo (cursor : Cursor) : (draft.moveTo cursor).slots = draft.slots := rfl

@[simp] theorem slots_note (faults : List Fault) : (draft.note faults).slots = draft.slots := rfl

@[simp] theorem slots_enter (opened : Opened) : (draft.enter opened).slots = draft.slots := rfl

@[simp] theorem slots_add (node : Node) : (draft.add node).slots = draft.slots := by
  unfold add
  split <;> rfl

@[simp] theorem slots_leave (outer : List Opened) (node : Node) :
    (draft.leave outer node).slots = draft.slots :=
  slots_add { draft with opened := outer } node

/-- A construct in braces reads no script and no style. -/
theorem slots_readBraced {use : Braced → Draft → Draft}
    (uses : ∀ braced moved, (use braced moved).slots = moved.slots) :
    (draft.readBraced use).slots = draft.slots := by
  unfold readBraced
  split
  · rw [slots_note, slots_moveTo]
  · rw [uses, slots_moveTo]

/-- An element below the top level is no script and no style. -/
theorem slots_readElement : draft.readElement.slots = draft.slots := by
  cases read : (openTag draft.cursor).value with
  | none =>
    unfold readElement
    simp only [read, slots_note, slots_moveTo]
  | some tag =>
    rw [readElement_eq read]
    unfold readBody
    split <;> simp only [slots_add, slots_note, slots_moveTo, slots_enter]

/-- Scripts and styles are read at top level only. -/
theorem slots_readNode : draft.readNode.slots = draft.slots := by
  unfold readNode
  split
  · unfold readComment
    simp only
    split <;> simp only [slots_add, slots_note, slots_moveTo]
  · exact slots_readElement draft
  · rw [readStrayClosing, slots_note, slots_moveTo]
  · refine slots_readBraced draft fun braced moved => ?_
    simp only
    split <;> simp only [slots_note, slots_enter]
  · refine slots_readBraced draft fun braced moved => ?_
    simp only
    split <;> simp only [slots_note, slots_add]
  · exact slots_readBraced draft fun braced moved => slots_add moved _
  · exact slots_readBraced draft fun braced moved => slots_note moved _
  · exact slots_readBraced draft fun braced moved => slots_note moved _
  · rw [slots_moveTo]

/-- Keeping a script drops none that is there. -/
theorem keepScript_keeps (raw : RawElement) (span : Span) :
    draft.Keeps (keepScript raw span draft) := by
  unfold keepScript
  simp only
  split <;> split
  · exact keeps_of_slots draft (slots_note draft _)
  · next first => exact ⟨fun none => (Option.some_ne_none _ none).elim, id, id⟩
  · exact keeps_of_slots draft (slots_note draft _)
  · next first => exact ⟨id, fun none => (Option.some_ne_none _ none).elim, id⟩

/-- Keeping a style does not drop the one that is there. -/
theorem keepStyle_keeps (raw : RawElement) (span : Span) :
    draft.Keeps (keepStyle raw span draft) := by
  unfold keepStyle
  split
  · exact keeps_of_slots draft (slots_note draft _)
  · exact ⟨id, id, fun none => (Option.some_ne_none _ none).elim⟩

/-- Reading a script or style drops none that is there. -/
theorem readRaw_keeps {keep : RawElement → Span → Draft → Draft}
    (keeps : ∀ raw span (moved : Draft), moved.Keeps (keep raw span moved)) :
    draft.Keeps (draft.readRaw keep) := by
  have moved : draft.Keeps ((draft.moveTo (rawElement draft.cursor).next).note
      (rawElement draft.cursor).faults) := keeps_of_slots draft rfl
  unfold readRaw
  simp only
  split
  · exact moved
  · exact moved.trans (keeps _ _ _)

/-- A step at top level drops no script and no style. -/
theorem readTop_keeps : draft.Keeps draft.readTop := by
  have node := keeps_of_slots draft (slots_readNode draft)
  unfold readTop
  split
  · split
    · exact readRaw_keeps draft fun raw span moved => keepScript_keeps moved raw span
    · exact readRaw_keeps draft fun raw span moved => keepStyle_keeps moved raw span
    · exact node
  · exact node

/-- Closing an element reads no script and no style. -/
theorem slots_closeElement (entry : OpenElement) (outer : List Opened) :
    (draft.closeElement entry outer).slots = draft.slots := by
  unfold closeElement
  split <;> simp only [slots_leave, slots_note, slots_moveTo]

/-- Going on with a block reads no script and no style. -/
theorem slots_continueBlock (entry : OpenBlock) (outer : List Opened) :
    (draft.continueBlock entry outer).slots = draft.slots := by
  unfold continueBlock
  simp only
  split
  · simp only [slots_leave, slots_note, slots_moveTo]
  · split <;> rfl

/-- Ending a block reads no script and no style. -/
theorem slots_endBlock (entry : OpenBlock) (outer : List Opened) :
    (draft.endBlock entry outer).slots = draft.slots := by
  unfold endBlock
  simp only
  split <;> simp only [slots_leave, slots_note, slots_moveTo]

/-- Only at top level a step reads a script or a style. -/
theorem slots_of_step {draft next : Draft} (stepped : draft.step = some next) :
    next.slots = draft.slots ∨
      StartsConstruct draft.cursor.rest ∧ draft.opened = [] ∧ next = draft.readTop := by
  cases step_eq_some_iff.mp stepped with
  | text => exact .inl (slots_add (draft.moveTo _) _)
  | top noText isOpen => exact .inr ⟨startsConstruct_iff.mpr noText, isOpen, rfl⟩
  | @close entry outer => exact .inl (slots_closeElement draft entry outer)
  | child | inner => exact .inl (slots_readNode draft)
  | @abandon entry outer => exact .inl (slots_leave (draft.note _) outer _)
  | @branch entry outer => exact .inl (slots_continueBlock draft entry outer)
  | @finish entry outer => exact .inl (slots_endBlock draft entry outer)

/-- A step drops no script and no style. -/
theorem step_keeps {draft next : Draft} (stepped : draft.step = some next) : draft.Keeps next := by
  rcases slots_of_step stepped with same | ⟨-, -, rfl⟩
  · exact keeps_of_slots draft same
  · exact readTop_keeps draft

/-- A run drops no script and no style. -/
theorem run_keeps_slots (draft : Draft) : draft.Keeps draft.run := by
  fun_induction run draft with
  | case1 draft => exact Keeps.refl draft
  | case2 draft next stepped ih => exact (step_keeps stepped).trans ih

/-- **A whole run on top of what was read before.** It reads the same, if it reads no script or
style of which there is one before. -/
theorem run_onto (draft : Draft) (apart : SlotsApart base draft.run) :
    (draft.onto base length).run = draft.run.onto base length := by
  fun_induction run draft with
  | case1 draft ended => exact run_of_step_eq_none (step_onto_eq_none ended)
  | case2 draft next stepped ih =>
    rw [run_of_step (step_onto stepped (apart.of_keeps (run_keeps_slots next))), ih apart]

end Draft

end ClassHoist.Markup
