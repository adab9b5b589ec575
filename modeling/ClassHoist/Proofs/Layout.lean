import ClassHoist.Proofs.Usages
import Mathlib.Data.List.Nodup

/-! # How the spans of a tree lie

The spans of siblings come in order, inside the span of their parent. While a document is read, the
innermost open element or block is filled up to the place reached, and every other one up to the
start of the one inside it (`Draft.Spaced`). Adding a node, opening and leaving keep this. All of it
is stated twice at once: between spans something may have been left out, or nothing if the document
is read exactly.
-/

namespace ClassHoist.Markup

/-- The first offset is not behind the second; nothing is between them if `exact`. -/
def Meets (exact : Prop) (first second : Nat) : Prop :=
  first ≤ second ∧ (exact → first = second)

/-- From `lo` up to `hi`, spans that are not empty come one after the other; nothing is left out
between them, before or after if `exact`. -/
def Spread (exact : Prop) : (lo : Nat) → List Span → (hi : Nat) → Prop
  | lo, [], hi => Meets exact lo hi
  | lo, span :: rest, hi =>
    Meets exact lo span.start ∧ span.start < span.stop ∧ Spread exact span.stop rest hi

/-- The nodes of a fragment are spread over its span. -/
def Fragment.Spaced (exact : Prop) (fragment : Fragment Node) : Prop :=
  Spread exact fragment.span.start (fragment.nodes.map Node.span) fragment.span.stop

/-- From `lo` up to `hi`, branches come one after the other, each with its nodes spread over the
span of its body, which ends with the branch. -/
def Chained (exact : Prop) : (lo : Nat) → List (Branch Node) → (hi : Nat) → Prop
  | lo, [], hi => lo = hi
  | lo, branch :: rest, hi =>
    Meets exact lo branch.span.start ∧ branch.span.start ≤ branch.body.span.start ∧
      branch.body.Spaced exact ∧ branch.body.span.stop = branch.span.stop ∧
        Chained exact branch.span.stop rest hi

/-- The parts of a node lie in order inside it: the children of an element, or the header of a
block, its body and its branches. A node without parts is not empty. -/
def Node.Spaced (exact : Prop) : Node → Prop
  | .element span _ _ children =>
    ∃ lo hi, span.start ≤ lo ∧ Spread exact lo (children.map Node.span) hi ∧ hi ≤ span.stop
  | .block span _ header body branches =>
    span.start = header.span.start ∧ header.span.start < header.span.stop ∧
      Meets exact header.span.stop body.span.start ∧ body.Spaced exact ∧
        ∃ hi, Chained exact body.span.stop branches hi ∧ hi ≤ span.stop
  | leaf => leaf.span.start < leaf.span.stop

/-- The parts of a node and of all nodes inside it lie in order. -/
def Node.Whole (exact : Prop) (node : Node) : Prop :=
  ∀ inner ∈ node.preorder, inner.Spaced exact

section Spread

variable {exact : Prop} {lo mid hi : Nat} {spans : List Span}

theorem Meets.refl (exact : Prop) (offset : Nat) : Meets exact offset offset :=
  ⟨Nat.le_refl _, fun _ => rfl⟩

theorem Meets.trans {first second third : Nat} (left : Meets exact first second)
    (right : Meets exact second third) : Meets exact first third :=
  ⟨Nat.le_trans left.1 right.1, fun isExact => (left.2 isExact).trans (right.2 isExact)⟩

/-- Spans in order end no earlier than they start. -/
theorem Spread.le (spread : Spread exact lo spans hi) : lo ≤ hi := by
  induction spans generalizing lo with
  | nil => exact spread.1
  | cons span rest ih =>
    obtain ⟨meets, nonempty, later⟩ := spread
    have upTo := ih later
    have from_ := meets.1
    omega

/-- Spans in order may be put behind others that end where they start. -/
theorem Spread.append {more : List Span} (first : Spread exact lo spans mid)
    (second : Spread exact mid more hi) : Spread exact lo (spans ++ more) hi := by
  induction spans generalizing lo with
  | nil =>
    cases more with
    | nil => exact first.trans second
    | cons span rest => exact ⟨first.trans second.1, second.2⟩
  | cons span rest ih => exact ⟨first.1, first.2.1, ih first.2.2⟩

/-- A span directly behind others goes on from them. -/
theorem Spread.concat {span : Span} (spread : Spread exact lo spans span.start)
    (nonempty : span.start < span.stop) : Spread exact lo (spans ++ [span]) span.stop :=
  spread.append ⟨Meets.refl _ _, nonempty, Meets.refl _ _⟩

/-- Something may be skipped if the spans need not be exact. -/
theorem Spread.skip (spread : Spread exact lo spans mid) (inexact : ¬ exact) (upTo : mid ≤ hi) :
    Spread exact lo spans hi := by
  have skipped : Spread exact mid [] hi := ⟨upTo, fun isExact => absurd isExact inexact⟩
  have all := spread.append skipped
  rwa [List.append_nil] at all

/-- Some of the spans are still in order, with something left out. -/
theorem Spread.sublist {some : List Span} (sub : some.Sublist spans)
    (spread : Spread exact lo spans hi) : Spread False lo some hi := by
  induction sub generalizing lo with
  | slnil => exact ⟨spread.1, False.elim⟩
  | cons span sub ih =>
    obtain ⟨meets, nonempty, later⟩ := spread
    have behind := ih later
    have from_ := meets.1
    have skipped : Spread False lo [] span.stop := ⟨by omega, False.elim⟩
    exact skipped.append behind
  | cons_cons span sub ih =>
    obtain ⟨meets, nonempty, later⟩ := spread
    exact ⟨⟨meets.1, False.elim⟩, nonempty, ih later⟩

/-- A span among others in order starts no earlier than they do, and is not empty. -/
theorem Spread.lt_stop_of_mem (spread : Spread exact lo spans hi) {span : Span}
    (member : span ∈ spans) : lo ≤ span.start ∧ span.start < span.stop := by
  induction spans generalizing lo with
  | nil => cases member
  | cons first rest ih =>
    obtain ⟨meets, nonempty, later⟩ := spread
    have from_ := meets.1
    rcases List.mem_cons.mp member with rfl | behind
    · exact ⟨from_, nonempty⟩
    · have placed := ih later behind
      omega

/-- A span among others in order stops no later than they do. -/
theorem Spread.stop_le_of_mem (spread : Spread exact lo spans hi) {span : Span}
    (member : span ∈ spans) : span.stop ≤ hi := by
  induction spans generalizing lo with
  | nil => cases member
  | cons first rest ih =>
    obtain ⟨-, -, later⟩ := spread
    rcases List.mem_cons.mp member with rfl | behind
    · exact later.le
    · exact ih later behind

/-- The spans are ordered by their starts. -/
theorem Spread.pairwise (spread : Spread exact lo spans hi) :
    spans.Pairwise fun first second => first.stop ≤ second.start := by
  induction spans generalizing lo with
  | nil => exact List.Pairwise.nil
  | cons span rest ih =>
    obtain ⟨-, -, later⟩ := spread
    exact List.pairwise_cons.mpr ⟨fun other member => (later.lt_stop_of_mem member).1, ih later⟩

/-- Sorting the spans puts them in order again. -/
theorem Spread.mergeSort (spread : Spread exact lo spans hi) {shuffled : List Span}
    (same : shuffled.Perm spans) :
    shuffled.mergeSort (fun first second => first.start ≤ second.start) = spans := by
  have strictly : spans.Pairwise fun first second => first.start < second.start := by
    refine spread.pairwise.imp_of_mem fun isFirst _ before => ?_
    have nonempty := (spread.lt_stop_of_mem isFirst).2
    omega
  have sorted : (shuffled.mergeSort fun first second => first.start ≤ second.start).Pairwise
      fun first second => first.start ≤ second.start := by
    refine (@List.pairwise_mergeSort Span (fun first second =>
      decide (first.start ≤ second.start)) ?_ ?_ shuffled).imp of_decide_eq_true
    · intro first second third
      simp only [decide_eq_true_eq]
      omega
    · intro first second
      simp only [Bool.or_eq_true, decide_eq_true_eq]
      omega
  have perm := (List.mergeSort_perm shuffled fun first second : Span =>
    decide (first.start ≤ second.start)).trans same
  refine List.Perm.eq_of_pairwise ?_ sorted (strictly.imp Nat.le_of_lt) perm
  intro first second isFirst isSecond before after
  have distinct : (spans.map Span.start).Nodup :=
    List.pairwise_map.mpr (strictly.imp Nat.ne_of_lt)
  exact List.inj_on_of_nodup_map distinct (perm.mem_iff.mp isFirst) isSecond
    (Nat.le_antisymm before after)

/-- Branches follow each other exactly if a place divides them. -/
theorem chained_append {first second : List (Branch Node)} :
    Chained exact lo (first ++ second) hi ↔
      ∃ mid, Chained exact lo first mid ∧ Chained exact mid second hi := by
  induction first generalizing lo with
  | nil => exact ⟨fun chained => ⟨lo, rfl, chained⟩, fun ⟨_, same, chained⟩ => same ▸ chained⟩
  | cons branch rest ih =>
    simp only [List.cons_append, Chained, ih]
    constructor
    · rintro ⟨meets, opens, spaced, stopIs, mid, front, back⟩
      exact ⟨mid, ⟨meets, opens, spaced, stopIs, front⟩, back⟩
    · rintro ⟨mid, ⟨meets, opens, spaced, stopIs, front⟩, back⟩
      exact ⟨meets, opens, spaced, stopIs, mid, front, back⟩

/-- Branches in order end no earlier than they start. -/
theorem Chained.le {branches : List (Branch Node)} (chained : Chained exact lo branches hi) :
    lo ≤ hi := by
  induction branches generalizing lo with
  | nil => exact Nat.le_of_eq chained
  | cons branch rest ih =>
    obtain ⟨meets, opens, spaced, stopIs, later⟩ := chained
    have from_ := meets.1
    have filled := spaced.le
    have upTo := ih later
    omega

end Spread

section Whole

variable {exact : Prop}

/-- A node is inside a list of nodes exactly if it is one of them or inside one. -/
theorem mem_nodesPreorder {nodes : List Node} {inner : Node} :
    inner ∈ nodesPreorder nodes ↔ ∃ node ∈ nodes, inner ∈ node.preorder := by
  induction nodes with
  | nil => simp [nodesPreorder]
  | cons node rest ih => simp [nodesPreorder, ih]

/-- A node is inside branches exactly if it is one of their nodes or inside one. -/
theorem mem_branchesPreorder {branches : List (Branch Node)} {inner : Node} :
    inner ∈ branchesPreorder branches ↔
      ∃ branch ∈ branches, ∃ node ∈ branch.body.nodes, inner ∈ node.preorder := by
  induction branches with
  | nil => simp [branchesPreorder]
  | cons branch rest ih =>
    obtain ⟨span, kind, code, ⟨nodes, bodySpan⟩⟩ := branch
    simp [branchesPreorder, ih, mem_nodesPreorder]

/-- An element is whole if its parts lie in order and its children are whole. -/
theorem whole_element {span : Span} {role : Role} {attributes : List Attribute}
    {children : List Node} (spaced : (Node.element span role attributes children).Spaced exact)
    (inside : ∀ child ∈ children, child.Whole exact) :
    (Node.element span role attributes children).Whole exact := by
  intro inner member
  rw [Node.preorder] at member
  rcases List.mem_cons.mp member with rfl | further
  · exact spaced
  · obtain ⟨child, isChild, isIn⟩ := mem_nodesPreorder.mp further
    exact inside child isChild inner isIn

/-- A block is whole if its parts lie in order and the nodes in them are whole. -/
theorem whole_block {span : Span} {kind : BlockKind} {header : Embedded} {body : Fragment Node}
    {branches : List (Branch Node)}
    (spaced : (Node.block span kind header body branches).Spaced exact)
    (inBody : ∀ node ∈ body.nodes, node.Whole exact)
    (inBranches : ∀ branch ∈ branches, ∀ node ∈ branch.body.nodes, node.Whole exact) :
    (Node.block span kind header body branches).Whole exact := by
  obtain ⟨nodes, bodySpan⟩ := body
  intro inner member
  rw [Node.preorder] at member
  rcases List.mem_cons.mp member with rfl | further
  · exact spaced
  · rcases List.mem_append.mp further with isIn | isIn
    · obtain ⟨node, isNode, isIn⟩ := mem_nodesPreorder.mp isIn
      exact inBody node isNode inner isIn
    · obtain ⟨branch, isBranch, node, isNode, isIn⟩ := mem_branchesPreorder.mp isIn
      exact inBranches branch isBranch node isNode inner isIn

/-- A node with nothing inside is whole. -/
theorem whole_leaf {node : Node} (alone : node.preorder = [node]) (spaced : node.Spaced exact) :
    node.Whole exact := by
  intro inner member
  rw [alone] at member
  exact List.mem_singleton.mp member ▸ spaced

end Whole

/-- Where an open element or block starts. -/
def Opened.start : Opened → Nat
  | .element entry => entry.tag.start
  | .block entry => entry.header.span.start

/-- All nodes read so far inside an open element or block. -/
def Opened.held : Opened → List Node
  | .element entry => entry.children
  | .block entry =>
    entry.nodes ++
      match entry.part with
      | .body => []
      | .later body branches _ => body.nodes ++ branches.flatMap fun branch => branch.body.nodes

/-- What has been read of a block lies in order, if its last part ends at `stop`. -/
structure OpenBlock.Spaced (exact : Prop) (block : OpenBlock) (stop : Nat) : Prop where
  header : block.header.span.start < block.header.span.stop
  kept : exact → ¬ (Opened.block block).drops
  body : Meets exact block.header.span.stop (block.parts stop).1.span.start
  nodes : (block.parts stop).1.Spaced exact
  branches : ∃ last,
    Chained exact (block.parts stop).1.span.stop (block.parts stop).2.reverse last ∧
      Meets exact last stop

/-- What has been read inside an open element or block lies in order up to `stop`. -/
def Opened.Spaced (exact : Prop) (opened : Opened) (stop : Nat) : Prop :=
  match opened with
  | .element entry =>
    ∃ lo, entry.tag.start < lo ∧ Spread exact lo (entry.children.reverse.map Node.span) stop
  | .block entry => entry.Spaced exact stop

/-- Each open element or block is filled up to the start of the one inside it, the innermost up to
`stop`; the outermost starts at `top`, or nothing is open and `top` is `stop`. -/
def Nested (exact : Prop) : List Opened → (stop top : Nat) → Prop
  | [], stop, top => top = stop
  | opened :: outer, stop, top => opened.Spaced exact stop ∧ Nested exact outer opened.start top

section Opened

variable {exact : Prop} {stop next : Nat}

/-- What is open stays in order when its nodes are spread further. -/
theorem OpenBlock.Spaced.grow {block : OpenBlock} (spaced : block.Spaced exact stop)
    {nodes : List Node} (upTo : stop ≤ next)
    (grown : ∀ lo, Spread exact lo (block.nodes.reverse.map Node.span) stop →
      Spread exact lo (nodes.reverse.map Node.span) next) :
    OpenBlock.Spaced exact { block with nodes } next := by
  obtain ⟨kind, header, part, start, old⟩ := block
  obtain ⟨opens, kept, body, filled, last, chained, ends⟩ := spaced
  cases part with
  | body =>
    obtain rfl : stop = last := chained
    exact ⟨opens, kept, body, grown _ filled, next, rfl, Meets.refl _ _⟩
  | later main branches branch =>
    cases branch with
    | none =>
      refine ⟨opens, kept, body, filled, last, chained, Nat.le_trans ends.1 upTo, fun isExact => ?_⟩
      exact absurd trivial (kept isExact)
    | some branch =>
      refine ⟨opens, kept, body, filled, next, ?_, Meets.refl _ _⟩
      simp only [OpenBlock.parts, List.reverse_cons, chained_append] at chained ⊢
      obtain ⟨mid, front, meets, starts, inside, -, -⟩ := chained
      exact ⟨mid, front, meets, starts, grown _ inside, rfl, rfl⟩

/-- A block goes on with its next part, which starts where the part before it ends. -/
theorem OpenBlock.Spaced.continue {block : OpenBlock} (spaced : block.Spaced exact stop)
    {branch : Option BranchStart} (startIs : ∀ start ∈ branch, start.start = stop)
    (dropped : branch = none → ¬ exact) (upTo : stop ≤ next) :
    OpenBlock.Spaced exact
      { block with
        part := .later (block.parts stop).1 (block.parts stop).2 branch
        start := next
        nodes := [] } next := by
  obtain ⟨opens, -, body, filled, last, chained, ends⟩ := spaced
  cases branch with
  | none =>
    have inexact := dropped rfl
    exact ⟨opens, fun isExact => absurd isExact inexact, body, filled, last, chained,
      Nat.le_trans ends.1 upTo, fun isExact => absurd isExact inexact⟩
  | some start =>
    obtain rfl := startIs start rfl
    refine ⟨opens, fun _ => id, body, filled, next, ?_, Meets.refl _ _⟩
    simp only [OpenBlock.parts, List.reverse_cons, chained_append]
    exact ⟨last, chained, ends, upTo, Meets.refl _ _, rfl, rfl⟩

/-- A node directly behind what has been read inside goes on from it. -/
theorem Opened.Spaced.add {opened : Opened} {node : Node}
    (spaced : opened.Spaced exact node.span.start) (nonempty : node.span.start < node.span.stop) :
    (opened.add node).Spaced exact node.span.stop := by
  have grown (nodes : List Node) (lo : Nat)
      (spread : Spread exact lo (nodes.reverse.map Node.span) node.span.start) :
      Spread exact lo ((node :: nodes).reverse.map Node.span) node.span.stop := by
    rw [List.reverse_cons, List.map_append]
    exact spread.concat nonempty
  cases opened with
  | element entry =>
    obtain ⟨lo, starts, spread⟩ := spaced
    exact ⟨lo, starts, grown entry.children lo spread⟩
  | block entry => exact OpenBlock.Spaced.grow spaced (Nat.le_of_lt nonempty) (grown entry.nodes)

/-- Where a fault was found, an open element or block may skip some text. -/
theorem Opened.Spaced.skip {opened : Opened} (spaced : opened.Spaced exact stop)
    (inexact : ¬ exact) (upTo : stop ≤ next) : opened.Spaced exact next := by
  cases opened with
  | element entry =>
    obtain ⟨lo, starts, spread⟩ := spaced
    exact ⟨lo, starts, spread.skip inexact upTo⟩
  | block entry => exact OpenBlock.Spaced.grow spaced upTo fun _ spread => spread.skip inexact upTo

/-- An open element or block starts before what it is filled up to. -/
theorem Opened.Spaced.start_lt {opened : Opened} (spaced : opened.Spaced exact stop) :
    opened.start < stop := by
  cases opened with
  | element entry =>
    obtain ⟨lo, starts, spread⟩ := spaced
    exact Nat.lt_of_lt_of_le starts spread.le
  | block entry =>
    obtain ⟨opens, -, body, filled, last, chained, ends⟩ := spaced
    have inBody := filled.le
    have inBranches := chained.le
    have fromHeader := body.1
    have upTo := ends.1
    change entry.header.span.start < stop
    omega

/-- Adding a node does not move the start of an open element or block. -/
theorem Opened.start_add (opened : Opened) (node : Node) :
    (opened.add node).start = opened.start := by
  cases opened <;> rfl

/-- An open element or block holds the nodes added to it. -/
theorem Opened.held_add (opened : Opened) (node : Node) :
    (opened.add node).held = node :: opened.held := by
  cases opened <;> rfl

/-- The node that an open element becomes. -/
theorem OpenElement.whole_node {entry : OpenElement} (upTo : stop ≤ next)
    (spaced : (Opened.element entry).Spaced exact stop)
    (inside : ∀ node ∈ (Opened.element entry).held, node.Whole exact) :
    (entry.node next).Whole exact := by
  obtain ⟨lo, starts, spread⟩ := spaced
  exact whole_element ⟨lo, stop, Nat.le_of_lt starts, spread, upTo⟩
    fun child member => inside child (List.mem_reverse.mp member)

/-- The parts of a block hold nodes that were read inside it. -/
theorem OpenBlock.held_parts (block : OpenBlock) (stop : Nat) :
    (∀ node ∈ (block.parts stop).1.nodes, node ∈ (Opened.block block).held) ∧
      ∀ branch ∈ (block.parts stop).2, ∀ node ∈ branch.body.nodes,
        node ∈ (Opened.block block).held := by
  obtain ⟨kind, header, part, start, nodes⟩ := block
  cases part with
  | body => simp [parts, Opened.held]
  | later main branches branch =>
    have old : ∀ branch ∈ branches, ∀ node ∈ branch.body.nodes,
        node ∈ nodes ++ (main.nodes ++ branches.flatMap fun branch => branch.body.nodes) :=
      fun branch isBranch node isIn => List.mem_append_right _
        (List.mem_append_right _ (List.mem_flatMap.mpr ⟨branch, isBranch, isIn⟩))
    have inMain : ∀ node ∈ main.nodes,
        node ∈ nodes ++ (main.nodes ++ branches.flatMap fun branch => branch.body.nodes) :=
      fun node isIn => List.mem_append_right _ (List.mem_append_left _ isIn)
    cases branch with
    | none => exact ⟨inMain, old⟩
    | some branch =>
      refine ⟨inMain, fun other member => ?_⟩
      rcases List.mem_cons.mp member with rfl | earlier
      · exact fun node isIn => List.mem_append_left _ (List.mem_reverse.mp isIn)
      · exact old other earlier

/-- The next part of a block starts with the nodes of the parts before. -/
theorem OpenBlock.held_continue (block : OpenBlock) (stop next : Nat)
    (branch : Option BranchStart) :
    ∀ node ∈ (Opened.block { block with
        part := .later (block.parts stop).1 (block.parts stop).2 branch
        start := next
        nodes := [] }).held, node ∈ (Opened.block block).held := by
  obtain ⟨inBody, inBranches⟩ := block.held_parts stop
  intro node member
  change node ∈ (block.parts stop).1.nodes ++
    (block.parts stop).2.flatMap (fun branch => branch.body.nodes) at member
  rcases List.mem_append.mp member with old | later
  · exact inBody node old
  · obtain ⟨other, isBranch, isIn⟩ := List.mem_flatMap.mp later
    exact inBranches other isBranch node isIn

/-- The node that an open block becomes. -/
theorem OpenBlock.whole_node {entry : OpenBlock} (upTo : stop ≤ next)
    (spaced : entry.Spaced exact stop)
    (inside : ∀ node ∈ (Opened.block entry).held, node.Whole exact) :
    (entry.node stop next).Whole exact := by
  obtain ⟨opens, -, body, filled, last, chained, ends⟩ := spaced
  obtain ⟨inBody, inBranches⟩ := entry.held_parts stop
  refine whole_block ⟨rfl, opens, body, filled, last, chained, Nat.le_trans ends.1 upTo⟩ ?_ ?_
  · exact fun node member => inside node (inBody node member)
  · exact fun branch member node isIn =>
      inside node (inBranches branch (List.mem_reverse.mp member) node isIn)

/-- Where a fault was found, all that is open may skip some text. -/
theorem Nested.skip {opened : List Opened} {top : Nat} (nested : Nested exact opened stop top)
    (inexact : ¬ exact) (upTo : stop ≤ next) :
    ∃ top', Nested exact opened next top' ∧ top ≤ top' := by
  cases opened with
  | nil =>
    obtain rfl : top = stop := nested
    exact ⟨next, rfl, upTo⟩
  | cons innermost outer => exact ⟨top, ⟨nested.1.skip inexact upTo, nested.2⟩, Nat.le_refl _⟩

end Opened

namespace Draft

/-- The spans of the finished nodes at top level, and of the scripts and the style. -/
def parts (draft : Draft) : List Span :=
  draft.nodes.reverse.map Node.span ++ (draft.moduleScript.toList.map Script.span ++
    (draft.instanceScript.toList.map Script.span ++ draft.style.toList.map Style.span))

/-- What has been read lies in order up to `stop`. -/
structure Spaced (exact : Prop) (draft : Draft) (stop : Nat) : Prop where
  nodes : ∀ node ∈ draft.nodes, node.Whole exact
  held : ∀ opened ∈ draft.opened, ∀ node ∈ opened.held, node.Whole exact
  parts : ∃ spans top, Nested exact draft.opened stop top ∧ Spread exact 0 spans top ∧
    draft.parts.Perm spans ∧ (draft.nodes.reverse.map Node.span).Sublist spans

section Spaced

variable {exact : Prop} {draft : Draft} {stop next : Nat}

/-- In the beginning nothing has been read, up to the start of the source. -/
theorem start_spaced (exact : Prop) (source : Text) : (start source).Spaced exact 0 where
  nodes := by intro node member; cases member
  held := by intro opened member; cases member
  parts := ⟨[], 0, rfl, Meets.refl _ _, List.Perm.refl _, List.Sublist.refl _⟩

/-- Moving keeps what has been read in order. -/
theorem Spaced.moveTo (spaced : draft.Spaced exact stop) (cursor : Cursor) :
    (draft.moveTo cursor).Spaced exact stop := ⟨spaced.nodes, spaced.held, spaced.parts⟩

/-- Noting faults keeps what has been read in order. -/
theorem Spaced.note (spaced : draft.Spaced exact stop) (faults : List Fault) :
    (draft.note faults).Spaced exact stop := ⟨spaced.nodes, spaced.held, spaced.parts⟩

/-- Something may be skipped if the reading need not be exact. -/
theorem Spaced.skip (spaced : draft.Spaced exact stop) (inexact : ¬ exact) (upTo : stop ≤ next) :
    draft.Spaced exact next := by
  obtain ⟨spans, top, nested, spread, perm, sub⟩ := spaced.parts
  obtain ⟨top', nested', upTo'⟩ := nested.skip inexact upTo
  exact ⟨spaced.nodes, spaced.held, spans, top', nested', spread.skip inexact upTo', perm, sub⟩

/-- A whole node directly behind what has been read goes on from it. -/
theorem Spaced.add {node : Node} (spaced : draft.Spaced exact node.span.start)
    (nonempty : node.span.start < node.span.stop) (whole : node.Whole exact) :
    (draft.add node).Spaced exact node.span.stop := by
  obtain ⟨nodes, held, spans, top, nested, spread, perm, sub⟩ := spaced
  obtain ⟨cursor, opened, finished, moduleScript, instanceScript, style, faults⟩ := draft
  cases opened with
  | nil =>
    obtain rfl : top = node.span.start := nested
    refine ⟨?_, held, spans ++ [node.span], node.span.stop, rfl, spread.concat nonempty, ?_, ?_⟩
    · intro other member
      rcases List.mem_cons.mp member with rfl | old
      · exact whole
      · exact nodes other old
    · simp only [Draft.parts, Draft.add, List.reverse_cons, List.map_append, List.map_cons,
        List.map_nil, List.append_assoc] at perm ⊢
      exact List.perm_middle.trans
        ((List.Perm.cons _ perm).trans (List.perm_append_singleton _ _).symm)
    · simp only [Draft.add, List.reverse_cons, List.map_append, List.map_cons, List.map_nil]
      exact sub.append (List.Sublist.refl _)
  | cons innermost outer =>
    obtain ⟨inside, around⟩ := nested
    refine ⟨nodes, ?_, spans, top, ⟨inside.add nonempty, ?_⟩, spread, perm, sub⟩
    · intro opened member other isIn
      rcases List.mem_cons.mp member with rfl | outside
      · rw [Opened.held_add] at isIn
        rcases List.mem_cons.mp isIn with rfl | old
        · exact whole
        · exact held innermost List.mem_cons_self other old
      · exact held opened (List.mem_cons_of_mem _ outside) other isIn
    · rw [Opened.start_add]
      exact around

/-- What is opened directly behind what has been read goes on from it. -/
theorem Spaced.enter {opened : Opened} (spaced : draft.Spaced exact opened.start)
    (opens : opened.Spaced exact next) (empty : opened.held = []) :
    (draft.enter opened).Spaced exact next := by
  obtain ⟨nodes, held, spans, top, nested, spread, perm, sub⟩ := spaced
  refine ⟨nodes, ?_, spans, top, ⟨opens, nested⟩, spread, perm, sub⟩
  intro other member node isIn
  rcases List.mem_cons.mp member with rfl | outside
  · rw [empty] at isIn
    cases isIn
  · exact held other outside node isIn

/-- What becomes of the innermost open element or block stands in its place. -/
theorem Spaced.leave {innermost : Opened} {outer : List Opened} {node : Node}
    (spaced : draft.Spaced exact stop) (isOpen : draft.opened = innermost :: outer)
    (startIs : node.span.start = innermost.start) (upTo : stop ≤ node.span.stop)
    (whole : node.Whole exact) : (draft.leave outer node).Spaced exact node.span.stop := by
  obtain ⟨nodes, held, spans, top, nested, spread, perm, sub⟩ := spaced
  rw [isOpen] at nested held
  obtain ⟨inside, around⟩ := nested
  have nonempty := inside.start_lt
  rw [← startIs] at around nonempty
  have outside : Draft.Spaced exact { draft with opened := outer } node.span.start :=
    ⟨nodes, fun opened member => held opened (List.mem_cons_of_mem _ member), spans, top, around,
      spread, perm, sub⟩
  exact outside.add (Nat.lt_of_lt_of_le nonempty upTo) whole

end Spaced

end Draft

end ClassHoist.Markup
