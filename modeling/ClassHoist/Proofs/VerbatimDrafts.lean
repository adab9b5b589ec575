import ClassHoist.Proofs.SessionAgreement
import ClassHoist.Proofs.Verbatim

/-! # Documents hold the text of their source

What is as it stands in the source stays so while a document is read (`Draft.Verbatim`), and what is
open can be closed at any later place. So everything in the document is as it stands in the source,
whatever faults are found, and every fault shows in the source (`read_verbatim`).
-/

namespace ClassHoist.Markup

variable {source : Text} {cursor last : Cursor} {draft : Draft} {node : Node} {outer : List Opened}

/-- A node and all nodes inside it are as they stand in the source. -/
def Node.AllVerbatim (source : Text) (node : Node) : Prop :=
  ∀ inner ∈ node.preorder, inner.Verbatim source

/-- A node is verbatim throughout if it is itself and everything inside it is. -/
theorem allVerbatim_of_inside (here : node.Verbatim source)
    (inside : ∀ child ∈ node.inside, child.AllVerbatim source) : node.AllVerbatim source := by
  intro inner member
  rcases Node.mem_preorder.mp member with rfl | ⟨child, isChild, isIn⟩
  · exact here
  · exact inside child isChild inner isIn

/-- A node with nothing inside it is verbatim throughout if it is itself. -/
theorem allVerbatim_of_leaf (alone : node.inside = []) (here : node.Verbatim source) :
    node.AllVerbatim source :=
  allVerbatim_of_inside here (by rw [alone]; exact nofun)

/-- The nodes of a fragment are as they stand in the source, and so is its span. -/
structure Fragment.Verbatim (source : Text) (fragment : Fragment Node) : Prop where
  span : fragment.span.Fits source
  nodes : ∀ node ∈ fragment.nodes, node.AllVerbatim source

/-- What a branch is made of is as it stands in the source. -/
structure Branch.Verbatim (source : Text) (branch : Branch Node) : Prop where
  span : branch.span.Fits source
  body : branch.body.Verbatim source

/-- What has been read of a block before the part that starts at an offset. -/
def BlockPart.Verbatim (source : Text) (start : Nat) : BlockPart → Prop
  | .body => True
  | .later content branches branch =>
    content.Verbatim source ∧ (∀ other ∈ branches, other.Verbatim source) ∧
      ∀ first ∈ branch, source.isBoundary first.start = true ∧ first.start ≤ start

/-- What has been read of a block in front of a place. -/
structure OpenBlock.Verbatim (source : Text) (cursor : Cursor) (block : OpenBlock) : Prop where
  header : block.header.Verbatim source
  front : block.header.span.start ≤ block.start
  boundary : source.isBoundary block.start = true
  before : block.start ≤ cursor.offset
  nodes : ∀ node ∈ block.nodes, node.AllVerbatim source
  part : block.part.Verbatim source block.start

/-- What has been read of an element in front of a place. -/
structure OpenElement.Verbatim (source : Text) (cursor : Cursor) (element : OpenElement) : Prop where
  tag : element.tag.Sound source cursor
  children : ∀ child ∈ element.children, child.AllVerbatim source

/-- What has been read of an element or block in front of a place. -/
def Opened.Verbatim (source : Text) (cursor : Cursor) : Opened → Prop
  | .element entry => entry.Verbatim source cursor
  | .block entry => entry.Verbatim source cursor

/-- An opening tag stays sound at every place that is reached later. -/
theorem OpenTag.Sound.mono {tag : OpenTag} (sound : tag.Sound source cursor)
    (reach : cursor.Reaches last) : tag.Sound source last :=
  { sound with before := sound.before.trans reach.offset_le }

/-- What is open stays verbatim at every place that is reached later. -/
theorem Opened.Verbatim.mono {opened : Opened} (verbatim : opened.Verbatim source cursor)
    (reach : cursor.Reaches last) : opened.Verbatim source last := by
  cases opened with
  | element entry =>
    obtain ⟨tag, children⟩ : entry.Verbatim source cursor := verbatim
    exact ⟨tag.mono reach, children⟩
  | block entry =>
    obtain ⟨header, front, boundary, before, nodes, part⟩ : entry.Verbatim source cursor := verbatim
    exact ⟨header, front, boundary, before.trans reach.offset_le, nodes, part⟩

/-- A node that is verbatim may be added to what is open. -/
theorem Opened.Verbatim.add {opened : Opened} (verbatim : opened.Verbatim source cursor)
    (new : node.AllVerbatim source) : (opened.add node).Verbatim source cursor := by
  have both {nodes : List Node} (old : ∀ node ∈ nodes, node.AllVerbatim source) :
      ∀ other ∈ node :: nodes, other.AllVerbatim source := List.forall_mem_cons.mpr ⟨new, old⟩
  cases opened with
  | element entry =>
    obtain ⟨tag, children⟩ : entry.Verbatim source cursor := verbatim
    exact ⟨tag, both children⟩
  | block entry =>
    obtain ⟨header, front, boundary, before, nodes, part⟩ : entry.Verbatim source cursor := verbatim
    exact ⟨header, front, boundary, before, both nodes, part⟩

/-- An element can be closed at any later place. -/
theorem OpenElement.Verbatim.closed {element : OpenElement}
    (verbatim : element.Verbatim source cursor) (within : cursor.In source)
    (reach : cursor.Reaches last) : (element.node last.offset).AllVerbatim source := by
  have tag := verbatim.tag.mono reach
  apply allVerbatim_of_inside
  · exact ⟨fits_of_boundaries tag.boundary (within.trans reach).isBoundary tag.before,
      tag.attributes⟩
  · intro child member
    exact verbatim.children child (List.mem_reverse.mp member)

namespace OpenBlock.Verbatim

variable {block : OpenBlock}

/-- The part that is being read ends at the place. -/
theorem parts (verbatim : block.Verbatim source cursor) (within : cursor.In source) :
    (block.parts cursor.offset).1.Verbatim source ∧
      ∀ branch ∈ (block.parts cursor.offset).2, branch.Verbatim source := by
  have fragment : Fragment.Verbatim source ⟨block.nodes.reverse, ⟨block.start, cursor.offset⟩⟩ :=
    ⟨fits_of_boundaries verbatim.boundary within.isBoundary verbatim.before,
      fun node member => verbatim.nodes node (List.mem_reverse.mp member)⟩
  have part := verbatim.part
  unfold OpenBlock.parts
  split
  case h_1 => exact ⟨fragment, nofun⟩
  case h_2 body branches first isPart =>
    rw [isPart] at part
    obtain ⟨isBody, isBranch, starts⟩ := part
    obtain ⟨boundary, before⟩ := starts first rfl
    refine ⟨isBody, List.forall_mem_cons.mpr ⟨⟨?_, fragment⟩, isBranch⟩⟩
    exact fits_of_boundaries boundary within.isBoundary (before.trans verbatim.before)
  case h_3 body branches isPart =>
    rw [isPart] at part
    exact ⟨part.1, part.2.1⟩

/-- A block can be closed at any later place, with its last part ending where it has been read. -/
theorem closed (verbatim : block.Verbatim source cursor) (within : cursor.In source)
    (reach : cursor.Reaches last) : (block.node cursor.offset last.offset).AllVerbatim source := by
  obtain ⟨isBody, isBranch⟩ := verbatim.parts within
  have ordered := (verbatim.front.trans verbatim.before).trans reach.offset_le
  unfold OpenBlock.node
  apply allVerbatim_of_inside
  · refine ⟨fits_of_boundaries verbatim.header.whole.start (within.trans reach).isBoundary ordered,
      verbatim.header, isBody.span, fun branch member => ?_⟩
    have branchIs := isBranch branch (List.mem_reverse.mp member)
    exact ⟨branchIs.span, branchIs.body.span⟩
  · intro child member
    rcases List.mem_append.mp member with inBody | inBranches
    · exact isBody.nodes child inBody
    · obtain ⟨branch, isIn, isChild⟩ := List.mem_flatMap.mp inBranches
      exact (isBranch branch (List.mem_reverse.mp isIn)).body.nodes child isChild

end OpenBlock.Verbatim

/-- Everything that has been read is as it stands in the source, and the faults show in it. -/
structure Draft.Verbatim (source : Text) (draft : Draft) : Prop where
  within : draft.cursor.In source
  opened : ∀ opened ∈ draft.opened, opened.Verbatim source draft.cursor
  nodes : ∀ node ∈ draft.nodes, node.AllVerbatim source
  moduleScript : ∀ script ∈ draft.moduleScript, script.Verbatim source
  instanceScript : ∀ script ∈ draft.instanceScript, script.Verbatim source
  style : ∀ style ∈ draft.style, style.Verbatim source
  faults : ∀ fault ∈ draft.faults, fault.span.Fits source

namespace Draft

/-- In the beginning nothing has been read that could differ from the source. -/
theorem start_verbatim (source : Text) : (start source).Verbatim source :=
  ⟨.refl _, nofun, nofun, nofun, nofun, nofun, nofun⟩

namespace Verbatim

variable {faults : List Fault}

/-- Moving on keeps what has been read verbatim. -/
theorem moveTo (verbatim : draft.Verbatim source) (reach : draft.cursor.Reaches cursor) :
    (draft.moveTo cursor).Verbatim source :=
  { verbatim with
    within := verbatim.within.trans reach
    opened := fun opened member => (verbatim.opened opened member).mono reach }

/-- Faults that show in the source may be noted. -/
theorem note (verbatim : draft.Verbatim source)
    (fits : ∀ fault ∈ faults, fault.span.Fits source) : (draft.note faults).Verbatim source := by
  refine { verbatim with faults := fun fault member => ?_ }
  rcases List.mem_append.mp member with new | old
  · exact fits fault (List.mem_reverse.mp new)
  · exact verbatim.faults fault old

/-- What was read of one fault. -/
theorem note_one (verbatim : draft.Verbatim source) {fault : Fault}
    (fits : fault.span.Fits source) : (draft.note [fault]).Verbatim source :=
  verbatim.note fun _ member => List.mem_singleton.mp member ▸ fits

/-- A node that is verbatim may be added. -/
theorem add (verbatim : draft.Verbatim source) (new : node.AllVerbatim source) :
    (draft.add node).Verbatim source := by
  unfold Draft.add
  split
  case h_1 => exact { verbatim with nodes := List.forall_mem_cons.mpr ⟨new, verbatim.nodes⟩ }
  case h_2 innermost outer isOpen =>
    obtain ⟨inner, others⟩ := List.forall_mem_cons.mp (isOpen ▸ verbatim.opened)
    exact { verbatim with opened := List.forall_mem_cons.mpr ⟨inner.add new, others⟩ }

/-- An element or block that is verbatim may be entered. -/
theorem enter (verbatim : draft.Verbatim source) {opened : Opened}
    (new : opened.Verbatim source draft.cursor) : (draft.enter opened).Verbatim source :=
  { verbatim with opened := List.forall_mem_cons.mpr ⟨new, verbatim.opened⟩ }

/-- An element or block may be left with a node that is verbatim. -/
theorem leave (verbatim : draft.Verbatim source) {innermost : Opened}
    (isOpen : draft.opened = innermost :: outer) (new : node.AllVerbatim source) :
    (draft.leave outer node).Verbatim source := by
  obtain ⟨-, others⟩ := List.forall_mem_cons.mp (isOpen ▸ verbatim.opened)
  have left_ : ({ draft with opened := outer } : Draft).Verbatim source :=
    { verbatim with opened := others }
  exact left_.add new

/-- The innermost element or block is verbatim in front of the place. -/
theorem innermost (verbatim : draft.Verbatim source) {innermost : Opened}
    (isOpen : draft.opened = innermost :: outer) : innermost.Verbatim source draft.cursor :=
  verbatim.opened innermost (isOpen ▸ List.mem_cons_self)

end Verbatim

/-- Text is read verbatim. -/
theorem readText_verbatim (verbatim : draft.Verbatim source) {text rest : Text}
    (split : draft.cursor.rest = text ++ rest) : (draft.readText text rest).Verbatim source := by
  apply (verbatim.moveTo (Cursor.reaches_past split)).add
  exact allVerbatim_of_leaf rfl (shows_of_stands (verbatim.within.stands split))

/-- A comment stands in the source with its marks. -/
theorem comment_holds {data after : Text} (opens : cursor.token.kind = .commentOpen)
    (split : cursor.bump.rest = data ++ ['-', '-', '>'] ++ after) :
    cursor.Holds (cursor.bump.past (data ++ ['-', '-', '>']) after)
      ⟨cursor.token.span.start, cursor.bump.offset + Text.bytes (data ++ ['-', '-', '>'])⟩
      (['<', '!', '-', '-'] ++ (data ++ ['-', '-', '>'])) := by
  have isText : cursor.token.text = ['<', '!', '-', '-'] :=
    lexeme_symbol rfl (congrArg TokenKind.symbol? opens)
  refine ⟨cursor.rest.takeWhile Text.isSeparator, [], ?_, Cursor.token_start cursor, ?_, rfl⟩
  · conv_lhs => rw [Cursor.rest_eq, split, isText]
    rw [List.append_assoc ['<', '!', '-', '-']]
    rfl
  · rw [Cursor.offset_bump, Cursor.token_stop, isText, Text.bytes_append ['<', '!', '-', '-'],
      Nat.add_assoc]

/-- A comment is read verbatim. -/
theorem readComment_verbatim (verbatim : draft.Verbatim source)
    (opens : draft.cursor.token.kind = .commentOpen) : draft.readComment.Verbatim source := by
  have inside : draft.cursor.bump.In source :=
    verbatim.within.trans (Cursor.reaches_bump draft.cursor)
  have split := Text.spanUntil_append (Text.startsWith ['-', '-', '>']) draft.cursor.bump.rest
  unfold readComment
  simp only
  generalize (Text.spanUntil (Text.startsWith ['-', '-', '>']) draft.cursor.bump.rest).1 = data
    at split
  generalize (Text.spanUntil (Text.startsWith ['-', '-', '>']) draft.cursor.bump.rest).2 = rest
    at split
  split
  case h_1 after =>
    have split' : draft.cursor.bump.rest = data ++ ['-', '-', '>'] ++ after := by
      rw [← split, List.append_assoc]
      rfl
    have stands := (comment_holds opens split').stands_in verbatim.within
    apply (verbatim.moveTo ((Cursor.reaches_bump _).trans (Cursor.reaches_past split'))).add
    apply allVerbatim_of_leaf rfl
    have marked : "<!--" ++ String.ofList data ++ "-->" =
        String.ofList (['<', '!', '-', '-'] ++ (data ++ ['-', '-', '>'])) := by
      rw [String.ofList_append, String.ofList_append, ← String.append_assoc]
    rw [Node.Verbatim, marked]
    exact shows_of_stands stands
  case h_2 =>
    exact (verbatim.moveTo ((Cursor.reaches_bump _).trans (Cursor.reaches_toEnd _))).note_one
      (Cursor.fits_token inside)

/-- What follows an opening tag is read verbatim. -/
theorem readBody_verbatim (verbatim : draft.Verbatim source) {tag : OpenTag}
    (sound : tag.Sound source draft.cursor) : (draft.readBody tag).Verbatim source := by
  have entry (children : List Node) (inside : ∀ child ∈ children, child.AllVerbatim source) :
      OpenElement.Verbatim source draft.cursor
        ⟨tag, Role.ofName tag.name tag.selfClosing, children⟩ := ⟨sound, inside⟩
  unfold readBody
  cases bodyOf tag.name tag.selfClosing with
  | empty => exact verbatim.add ((entry [] nofun).closed verbatim.within (.refl _))
  | raw =>
    have place := verbatim.within.trans (rawContent_reaches draft.cursor tag.name)
    have reach := (rawContent_reaches draft.cursor tag.name).trans
      (closingTag_reaches (rawContent draft.cursor tag.name).2.2 tag.name)
    apply ((verbatim.moveTo reach).note (closingTag_sound place tag.name)).add
    apply (entry _ ?_).closed verbatim.within reach
    intro child member
    split at member
    · cases member
    · rw [List.mem_singleton.mp member]
      exact allVerbatim_of_leaf rfl (rawContent_shows verbatim.within tag.name)
  | text =>
    have place := verbatim.within.trans (textContent_reaches tag.name draft.cursor)
    have reach := (textContent_reaches tag.name draft.cursor).trans
      (closingTag_reaches (textContent tag.name draft.cursor).next tag.name)
    obtain ⟨nodes, faults⟩ := textContent_sound verbatim.within tag.name
    apply ((verbatim.moveTo reach).note ?_).add
    · apply (entry _ ?_).closed verbatim.within reach
      intro child member
      obtain ⟨alone, here⟩ := nodes child (List.mem_reverse.mp member)
      exact allVerbatim_of_leaf alone here
    · intro fault member
      rcases List.mem_append.mp member with inContent | later
      · exact faults fault inContent
      · exact closingTag_sound place tag.name fault later
  | markup => exact verbatim.enter (entry [] nofun)

/-- An element is read verbatim. -/
theorem readElement_verbatim (verbatim : draft.Verbatim source)
    (opens : draft.cursor.token.kind = .tagOpen) : draft.readElement.Verbatim source := by
  have reach := openTag_reaches draft.cursor
  obtain ⟨tagSound, faults⟩ := openTag_sound verbatim.within
  cases read : (openTag draft.cursor).value with
  | none =>
    unfold readElement
    simp only [read]
    exact (verbatim.moveTo reach).note faults
  | some tag =>
    rw [readElement_eq read]
    apply readBody_verbatim
    · apply (verbatim.moveTo reach).note
      intro fault member
      rcases List.mem_append.mp member with inTag | unknown
      · exact faults fault inTag
      · unfold unknownFaults at unknown
        split at unknown
        · rw [List.mem_singleton.mp unknown]
          exact fits_tagName verbatim.within opens read
        · cases unknown
    · exact tagSound tag read

/-- A stray closing tag keeps what has been read verbatim. -/
theorem readStrayClosing_verbatim (verbatim : draft.Verbatim source) :
    draft.readStrayClosing.Verbatim source := by
  have fits := Cursor.fits_token verbatim.within
  unfold readStrayClosing
  simp only
  split
  · exact (verbatim.moveTo ((Cursor.reaches_bump _).trans ((Cursor.reaches_bump _).trans
      (Cursor.reaches_skip _ _)))).note_one fits
  · exact (verbatim.moveTo ((Cursor.reaches_bump _).trans (Cursor.reaches_skip _ _))).note_one fits

/-- A construct in braces is verbatim if what it is used for is. -/
theorem readBraced_verbatim (verbatim : draft.Verbatim source) {use : Braced → Draft → Draft}
    (used : ∀ braced, draft.cursor.braced? = some braced →
      (draft.moveTo braced.next).Verbatim source →
        (use braced (draft.moveTo braced.next)).Verbatim source) :
    (draft.readBraced use).Verbatim source := by
  unfold readBraced
  split
  case h_1 =>
    exact (verbatim.moveTo (Cursor.reaches_toEnd _)).note_one (Cursor.fits_token verbatim.within)
  case h_2 braced found =>
    exact used braced found (verbatim.moveTo (Cursor.reaches_braced? found))

/-- A block is opened verbatim. -/
theorem readBlock_verbatim (verbatim : draft.Verbatim source) : draft.readBlock.Verbatim source := by
  apply readBraced_verbatim verbatim
  intro braced found moved
  have header := withKeyword_verbatim verbatim.within found
  simp only
  split
  · exact moved.note_one (fits_braced verbatim.within found)
  · apply moved.enter
    exact ⟨header, start_le_next verbatim.within found, moved.within.isBoundary, Nat.le_refl _, nofun, trivial⟩

/-- A special tag is read verbatim. -/
theorem readSpecialTag_verbatim (verbatim : draft.Verbatim source) :
    draft.readSpecialTag.Verbatim source := by
  apply readBraced_verbatim verbatim
  intro braced found moved
  simp only
  split
  · exact moved.note_one (fits_braced verbatim.within found)
  · exact moved.add (allVerbatim_of_leaf rfl (withKeyword_verbatim verbatim.within found))

/-- An expression is read verbatim. -/
theorem readExpression_verbatim (verbatim : draft.Verbatim source) :
    draft.readExpression.Verbatim source := by
  apply readBraced_verbatim verbatim
  intro braced found moved
  exact moved.add (allVerbatim_of_leaf rfl (embedded_braced_verbatim verbatim.within found))

/-- A construct in braces that stands alone keeps what has been read verbatim. -/
theorem readStrayBraced_verbatim (verbatim : draft.Verbatim source) :
    draft.readStrayBraced.Verbatim source := by
  unfold readStrayBraced
  apply readBraced_verbatim verbatim
  intro braced found moved
  exact moved.note_one (Cursor.fits_token verbatim.within)

/-- A node is read verbatim, whatever it is. -/
theorem readNode_verbatim (verbatim : draft.Verbatim source) : draft.readNode.Verbatim source := by
  unfold readNode
  split
  case h_1 opens => exact readComment_verbatim verbatim opens
  case h_2 opens => exact readElement_verbatim verbatim opens
  case h_3 => exact readStrayClosing_verbatim verbatim
  case h_4 => exact readBlock_verbatim verbatim
  case h_5 => exact readSpecialTag_verbatim verbatim
  case h_6 => exact readExpression_verbatim verbatim
  case h_7 | h_8 => exact readStrayBraced_verbatim verbatim
  case h_9 => exact verbatim.moveTo (Cursor.reaches_bump _)

/-- A script or style is read verbatim, if it is kept so. -/
theorem readRaw_verbatim (verbatim : draft.Verbatim source)
    {keep : RawElement → Span → Draft → Draft}
    (keeps : ∀ raw span next, raw.Verbatim source → span.Fits source → next.Verbatim source →
      (keep raw span next).Verbatim source) : (draft.readRaw keep).Verbatim source := by
  obtain ⟨raw, faults⟩ := rawElement_sound verbatim.within
  have next := (verbatim.moveTo (rawElement_reaches draft.cursor)).note faults
  unfold readRaw
  simp only
  split
  case h_1 => exact next
  case h_2 found => exact keeps _ _ _ (raw _ found) (Cursor.fits_token verbatim.within) next

/-- A script is kept verbatim. -/
theorem keepScript_verbatim (raw : RawElement) (span : Span) (draft : Draft)
    (rawIs : raw.Verbatim source) (fits : span.Fits source) (verbatim : draft.Verbatim source) :
    (keepScript raw span draft).Verbatim source := by
  have script : (Script.ofRaw raw).Verbatim source :=
    ⟨rawIs.whole, rawIs.content, rawIs.attributes⟩
  unfold keepScript
  simp only
  split
  case h_1 =>
    split
    · exact verbatim.note_one fits
    · exact { verbatim with moduleScript := fun _ isSome => Option.some.inj isSome ▸ script }
  case h_2 =>
    split
    · exact verbatim.note_one fits
    · exact { verbatim with instanceScript := fun _ isSome => Option.some.inj isSome ▸ script }

/-- A style is kept verbatim. -/
theorem keepStyle_verbatim (raw : RawElement) (span : Span) (draft : Draft)
    (rawIs : raw.Verbatim source) (fits : span.Fits source) (verbatim : draft.Verbatim source) :
    (keepStyle raw span draft).Verbatim source := by
  have style : (Style.ofRaw raw).Verbatim source :=
    ⟨rawIs.whole, rawIs.content, rawIs.attributes⟩
  unfold keepStyle
  split
  · exact verbatim.note_one fits
  · exact { verbatim with style := fun _ isSome => Option.some.inj isSome ▸ style }

/-- A step at top level reads verbatim. -/
theorem readTop_verbatim (verbatim : draft.Verbatim source) : draft.readTop.Verbatim source := by
  unfold readTop
  split
  case isTrue =>
    split
    case h_1 => exact readRaw_verbatim verbatim keepScript_verbatim
    case h_2 => exact readRaw_verbatim verbatim keepStyle_verbatim
    case h_3 => exact readNode_verbatim verbatim
  case isFalse => exact readNode_verbatim verbatim

/-- An element is closed as it stands in the source. -/
theorem closeElement_verbatim (verbatim : draft.Verbatim source) {entry : OpenElement}
    (isOpen : draft.opened = .element entry :: outer) :
    (draft.closeElement entry outer).Verbatim source := by
  have innermost : entry.Verbatim source draft.cursor := verbatim.innermost isOpen
  have reach := closingTag_reaches draft.cursor entry.tag.name
  unfold closeElement
  simp only
  split
  case isTrue => exact verbatim.leave isOpen (innermost.closed verbatim.within (.refl _))
  case isFalse =>
    apply ((verbatim.moveTo reach).note (closingTag_sound verbatim.within _)).leave isOpen
    exact innermost.closed verbatim.within reach

/-- A block is given up as it stands in the source. -/
theorem abandonBlock_verbatim (verbatim : draft.Verbatim source) {entry : OpenBlock}
    (isOpen : draft.opened = .block entry :: outer) :
    (draft.abandonBlock entry outer).Verbatim source := by
  have innermost : entry.Verbatim source draft.cursor := verbatim.innermost isOpen
  apply (verbatim.note_one (Cursor.fits_token verbatim.within)).leave isOpen
  exact innermost.closed verbatim.within (.refl _)

/-- A block is ended as it stands in the source. -/
theorem endBlock_verbatim (verbatim : draft.Verbatim source) {entry : OpenBlock}
    (isOpen : draft.opened = .block entry :: outer) :
    (draft.endBlock entry outer).Verbatim source := by
  have innermost : entry.Verbatim source draft.cursor := verbatim.innermost isOpen
  have token := Cursor.fits_token verbatim.within
  unfold endBlock
  simp only
  split
  case h_1 =>
    have reach := Cursor.reaches_toEnd draft.cursor
    apply ((verbatim.moveTo reach).note_one token).leave isOpen
    exact innermost.closed verbatim.within reach
  case h_2 braced found =>
    have reach := Cursor.reaches_braced? found
    apply ((verbatim.moveTo reach).note ?_).leave isOpen
    · exact innermost.closed verbatim.within reach
    · intro fault member
      split at member
      · cases member
      · exact List.mem_singleton.mp member ▸ token

/-- A block goes on with a part that starts at the place reached. -/
theorem Verbatim.continued (verbatim : draft.Verbatim source) {entry : OpenBlock}
    (isOpen : draft.opened = .block entry :: outer) (reach : draft.cursor.Reaches cursor)
    {branch : Option BranchStart}
    (starts : ∀ first ∈ branch, source.isBoundary first.start = true ∧ first.start ≤ cursor.offset) :
    ((draft.moveTo cursor).nextPart entry outer draft.cursor.offset branch).Verbatim source := by
  have moved := verbatim.moveTo reach
  obtain ⟨innermost, others⟩ := List.forall_mem_cons.mp (isOpen ▸ verbatim.opened)
  have innermost : entry.Verbatim source draft.cursor := innermost
  obtain ⟨isBody, isBranch⟩ := innermost.parts verbatim.within
  have front := (innermost.front.trans innermost.before).trans reach.offset_le
  have next : OpenBlock.Verbatim source cursor { entry with
      part := .later (entry.parts draft.cursor.offset).1 (entry.parts draft.cursor.offset).2 branch
      start := cursor.offset, nodes := [] } :=
    ⟨innermost.header, front, moved.within.isBoundary, Nat.le_refl _, nofun,
      isBody, isBranch, starts⟩
  refine { moved with opened := List.forall_mem_cons.mpr ⟨next, fun other member => ?_⟩ }
  exact (others other member).mono reach

/-- A block goes on as it stands in the source. -/
theorem continueBlock_verbatim (verbatim : draft.Verbatim source) {entry : OpenBlock}
    (isOpen : draft.opened = .block entry :: outer) :
    (draft.continueBlock entry outer).Verbatim source := by
  have innermost : entry.Verbatim source draft.cursor := verbatim.innermost isOpen
  unfold continueBlock
  simp only
  split
  case h_1 =>
    have reach := Cursor.reaches_toEnd draft.cursor
    apply ((verbatim.moveTo reach).note ?_).leave isOpen
    · exact innermost.closed verbatim.within reach
    · intro fault member
      rcases List.mem_pair.mp member with rfl | rfl
      · exact Cursor.fits_token verbatim.within
      · exact Cursor.fits_empty (verbatim.within.trans reach)
  case h_2 braced found =>
    have reach := Cursor.reaches_braced? found
    have fits := fits_braced verbatim.within found
    split
    case h_1 kind code =>
      apply verbatim.continued isOpen reach
      intro first isFirst
      exact Option.some.inj isFirst ▸ ⟨fits.start, start_le_next verbatim.within found⟩
    case h_2 =>
      apply (verbatim.continued isOpen reach ?_).note_one fits
      exact nofun

/-- Each step keeps what has been read verbatim. -/
theorem step_verbatim {next : Draft} (verbatim : draft.Verbatim source)
    (stepped : draft.step = some next) : next.Verbatim source := by
  cases step_eq_some_iff.mp stepped with
  | text => exact readText_verbatim verbatim List.takeWhile_append_dropWhile.symm
  | top => exact readTop_verbatim verbatim
  | close _ isOpen => exact closeElement_verbatim verbatim isOpen
  | child | inner => exact readNode_verbatim verbatim
  | abandon _ isOpen => exact abandonBlock_verbatim verbatim isOpen
  | branch _ isOpen => exact continueBlock_verbatim verbatim isOpen
  | finish _ isOpen => exact endBlock_verbatim verbatim isOpen

/-- A run keeps what has been read verbatim. -/
theorem run_keeps_verbatim (verbatim : draft.Verbatim source) : draft.run.Verbatim source := by
  fun_induction run draft with
  | case1 draft => exact verbatim
  | case2 draft next stepped ih => exact ih (step_verbatim verbatim stepped)

/-- A draft that is verbatim makes a verbatim document. -/
theorem Verbatim.document (verbatim : draft.Verbatim source) :
    (draft.document source).Verbatim source := by
  refine ⟨verbatim.moduleScript, verbatim.instanceScript, verbatim.style, ?_, fun node member => ?_⟩
  · have whole : Span.Fits source ⟨0, 0 + source.bytes⟩ :=
      Cursor.fits_between (.refl _) (Cursor.reaches_toEnd (Cursor.start source))
    rw [Nat.zero_add] at whole
    exact whole
  · obtain ⟨root, isRoot, isIn⟩ := mem_nodesPreorder.mp member
    exact verbatim.nodes root (List.mem_reverse.mp isRoot) node isIn

end Draft

/-- **A source is read without a cut out of place, and everything read is as it stands in it.** For
every source, with faults or without, the reading from tokens cuts only between characters and
arrives at the document; every span in the document and of a fault lies in the source in order and
between characters, and every text in the document is that of the source at its span. -/
theorem read_verbatim (source : Text) :
    readFed source = some (read source) ∧ (read source).1.Verbatim source ∧
      ∀ fault ∈ (read source).2, fault.span.Fits source := by
  have verbatim := Draft.run_keeps_verbatim (Draft.start_verbatim source)
  refine ⟨readFed_eq source, verbatim.document, fun fault member => ?_⟩
  exact verbatim.faults fault (List.mem_reverse.mp member)

end ClassHoist.Markup
