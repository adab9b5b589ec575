import ClassHoist.Markup.Nesting
import ClassHoist.Markup.Tag

/-! # A document being read

A draft holds what has been read of a document: the elements and blocks still open, innermost
first, with the nodes read inside each of them so far, the finished nodes at top level, and the
faults. Lists that grow while reading have their last entry first.
-/

namespace ClassHoist.Markup

/-- An element that is open: its opening tag, what it is, and its children so far, last first. -/
structure OpenElement where
  tag : OpenTag
  role : Role
  children : List Node

/-- The start of a branch: the offset of the tag that starts it, its kind, and its condition, value
or error. -/
structure BranchStart where
  start : Nat
  kind : BranchKind
  code : String

/-- Which part of a block is being read: its body, or a part after its body. A later part is a
branch, or one that no branch of the block can start and whose nodes are dropped; the branches
before it come last first. -/
inductive BlockPart where
  | body
  | later (body : Fragment Node) (branches : List (Branch Node)) (branch : Option BranchStart)

/-- A block that is open: its kind, its opening tag, the part being read, where the nodes of that
part start, and these nodes so far, last first. -/
structure OpenBlock where
  kind : BlockKind
  header : Embedded
  part : BlockPart
  start : Nat
  nodes : List Node

/-- An element or block that is open. -/
inductive Opened where
  | element (element : OpenElement)
  | block (block : OpenBlock)

/-- What is open, as far as closing tags are concerned. -/
def Opened.scope : Opened → Scope
  | .element entry =>
    match entry.role with
    | .element .. => .element entry.tag.name
    | _ => .component entry.tag.name
  | .block _ => .block

/-- Add a node to what is open. -/
def Opened.add (node : Node) : Opened → Opened
  | .element entry => .element { entry with children := node :: entry.children }
  | .block entry => .block { entry with nodes := node :: entry.nodes }

/-- The body of a block and its branches, last first, when the part being read ends at `stop`. -/
def OpenBlock.parts (block : OpenBlock) (stop : Nat) : Fragment Node × List (Branch Node) :=
  let fragment : Fragment Node := ⟨block.nodes.reverse, ⟨block.start, stop⟩⟩
  match block.part with
  | .body => (fragment, [])
  | .later body branches (some branch) =>
    (body, ⟨⟨branch.start, stop⟩, branch.kind, branch.code, fragment⟩ :: branches)
  | .later body branches none => (body, branches)

/-- The block whose last part ends at `partStop` and which itself ends at `stop`. -/
def OpenBlock.node (block : OpenBlock) (partStop stop : Nat) : Node :=
  let (body, branches) := block.parts partStop
  .block ⟨block.header.span.start, stop⟩ block.kind block.header body branches.reverse

/-- The element whose last child ends at `stop`. -/
def OpenElement.node (element : OpenElement) (stop : Nat) : Node :=
  .element ⟨element.tag.start, stop⟩ element.role element.tag.attributes element.children.reverse

/-- A document being read: the place reached, the open elements and blocks, innermost first, and the
finished nodes at top level, last first; the script that runs once, the script that runs for each
instance and the style, if they have been read; and the faults found, last first. -/
structure Draft where
  cursor : Cursor
  opened : List Opened
  nodes : List Node
  moduleScript : Option Script
  instanceScript : Option Script
  style : Option Style
  faults : List Fault

namespace Draft

/-- Nothing read yet. -/
def start (source : Text) : Draft := ⟨Cursor.start source, [], [], none, none, none, []⟩

/-- Go on at another place. -/
def moveTo (draft : Draft) (cursor : Cursor) : Draft := { draft with cursor }

/-- Note faults, given in the order in which they were found. -/
def note (draft : Draft) (faults : List Fault) : Draft :=
  { draft with faults := faults.reverse ++ draft.faults }

/-- Add a node to the innermost open element or block, or at top level. -/
def add (draft : Draft) (node : Node) : Draft :=
  match draft.opened with
  | [] => { draft with nodes := node :: draft.nodes }
  | innermost :: outer => { draft with opened := innermost.add node :: outer }

/-- Open an element or block. -/
def enter (draft : Draft) (opened : Opened) : Draft :=
  { draft with opened := opened :: draft.opened }

/-- Go on with what is open around the innermost element or block, and add that as a node. -/
def leave (draft : Draft) (outer : List Opened) (node : Node) : Draft :=
  { draft with opened := outer }.add node

/-- The open elements and blocks, as far as closing tags are concerned. -/
def scopes (draft : Draft) : List Scope := draft.opened.map Opened.scope

/-- Noting no faults changes nothing. -/
theorem note_nil (draft : Draft) : draft.note [] = draft := rfl

@[simp] theorem cursor_moveTo (draft : Draft) (cursor : Cursor) :
    (draft.moveTo cursor).cursor = cursor := rfl

@[simp] theorem cursor_note (draft : Draft) (faults : List Fault) :
    (draft.note faults).cursor = draft.cursor := rfl

@[simp] theorem cursor_add (draft : Draft) (node : Node) :
    (draft.add node).cursor = draft.cursor := by
  unfold add
  split <;> rfl

@[simp] theorem cursor_enter (draft : Draft) (opened : Opened) :
    (draft.enter opened).cursor = draft.cursor := rfl

@[simp] theorem cursor_leave (draft : Draft) (outer : List Opened) (node : Node) :
    (draft.leave outer node).cursor = draft.cursor := by
  simp [leave]

/-- Adding a node opens and closes nothing. -/
@[simp] theorem length_opened_add (draft : Draft) (node : Node) :
    (draft.add node).opened.length = draft.opened.length := by
  unfold add
  split <;> simp_all

@[simp] theorem length_opened_leave (draft : Draft) (outer : List Opened) (node : Node) :
    (draft.leave outer node).opened.length = outer.length := by
  simp [leave]

end Draft

end ClassHoist.Markup
