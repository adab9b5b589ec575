import ClassHoist.Proofs.TaggedNodes

/-! # The walk over a template, and the classes it collects

Every node of a template has an address: which node at top level it is in, which of the nodes
directly inside that, and so on. The walk goes over the nodes of all addresses, each of them once,
and over a node before the nodes inside it (`Visits`); in a document that was read it goes forward
in the source, because the nodes inside a node start behind the node and siblings do not overlap
(`Onward`). A component hands over the classes that stand in its tag, so these follow each
other in the source too, and none of them is in a script or the style (`read?_walk`).
-/

namespace ClassHoist.Markup

variable {source : Text} {document : Document} {node : Node} {nodes rest walk later : List Node}
  {addresses more : List (List Nat)} {lo hi : Nat}

/-- The node at an address inside a node: each number tells which of the nodes directly inside is
meant. -/
def Node.at? (node : Node) : List Nat → Option Node
  | [] => some node
  | index :: address => node.inside[index]?.bind (·.at? address)

/-- The node at an address in a list of nodes, whose first number tells which of the list is
meant. -/
def nodeAt? (nodes : List Node) : List Nat → Option Node
  | [] => none
  | index :: address => nodes[index]?.bind (·.at? address)

/-- A walk goes over the nodes of all addresses, each of them once, and over a node before the nodes
inside it. -/
structure Visits (at? : List Nat → Option Node) (addresses : List (List Nat))
    (walk : List Node) : Prop where
  found : addresses.map at? = walk.map some
  all : ∀ address, (at? address).isSome = true → address ∈ addresses
  -- An address is in front of itself and of those inside it, so none comes twice either.
  order : addresses.Pairwise fun first second => ¬ second <+: first

/-- The element is a component, and the first attribute named `class` of its tag starts with literal
text that is not empty: the classes it hands over. -/
def Node.Hands (node : Node) (usage : Usage) : Prop :=
  ∃ span role attributes children, node = .element span role attributes children ∧
    ((∃ name selfClosing, role = .component name selfClosing) ∨ role = .special .self ∨
      role = .special .component) ∧
    ∃ before entry after value literal, attributes = before ++ .named entry "class" value :: after ∧
      (∀ other ∈ before, other.name? ≠ some "class") ∧ value.leadingText? = some literal ∧
        literal.raw ≠ "" ∧ usage = ⟨literal.raw.toList, literal.span⟩

/-- A walk goes forward in the source, over nodes that are not empty, from `lo` up to `hi`. -/
structure Onward (lo hi : Nat) (walk : List Node) : Prop where
  within : ∀ node ∈ walk,
    lo ≤ node.span.start ∧ node.span.start < node.span.stop ∧ node.span.stop ≤ hi
  forward : walk.Pairwise fun first second => first.span.start < second.span.start

/-- The spans of the scripts and the style. -/
def Document.rawSpans (document : Document) : List Span :=
  document.moduleScript.toList.map Script.span ++
    (document.instanceScript.toList.map Script.span ++ document.style.toList.map Style.span)

/-- The walk over two lists of nodes is the walk over the first, then that over the second. -/
theorem nodesPreorder_append (first second : List Node) :
    nodesPreorder (first ++ second) = nodesPreorder first ++ nodesPreorder second := by
  induction first with
  | nil => rfl
  | cons node rest ih =>
    rw [List.cons_append, nodesPreorder, nodesPreorder, ih, List.append_assoc]

/-- The walk over branches is that over the nodes in them. -/
theorem branchesPreorder_eq (branches : List (Branch Node)) : branchesPreorder branches =
    nodesPreorder (branches.flatMap fun branch => branch.body.nodes) := by
  induction branches with
  | nil => rfl
  | cons branch rest ih =>
    rw [branchesPreorder, List.flatMap_cons, nodesPreorder_append, ih]

/-- A node comes before all that is inside it. -/
theorem Node.preorder_eq (node : Node) : node.preorder = node :: nodesPreorder node.inside := by
  cases node with
  | text | comment | expression | tag => rfl
  | element span role attributes children => rfl
  | block span kind header body branches =>
    rw [preorder, branchesPreorder_eq, ← nodesPreorder_append]
    rfl

/-- Below the root, the addresses of a node are those of the nodes directly inside it. -/
theorem nodeAt?_inside (node : Node) {address : List Nat} (nonempty : address ≠ []) :
    nodeAt? node.inside address = node.at? address := by
  cases address with
  | nil => exact absurd rfl nonempty
  | cons index address => rfl

namespace Visits

/-- Every address in a list of nodes tells which of them is meant. -/
theorem ne_nil (visits : Visits (nodeAt? nodes) addresses walk) {address : List Nat}
    (member : address ∈ addresses) : address ≠ [] := by
  rintro rfl
  have image : nodeAt? nodes [] ∈ addresses.map (nodeAt? nodes) := List.mem_map_of_mem member
  rw [visits.found] at image
  obtain ⟨node, -, isFound⟩ := List.mem_map.mp image
  cases isFound

/-- A walk over the nodes inside a node, behind the node. -/
theorem enter (visits : Visits (nodeAt? node.inside) addresses walk) :
    Visits node.at? ([] :: addresses) (node :: walk) where
  found := by
    rw [List.map_cons, List.map_cons, ← visits.found]
    congr 1
    exact List.map_congr_left fun address member =>
      (nodeAt?_inside node (visits.ne_nil member)).symm
  all := by
    intro address isFound
    cases address with
    | nil => exact List.mem_cons_self
    | cons index address => exact List.mem_cons_of_mem _ (visits.all (index :: address) isFound)
  order := by
    refine List.pairwise_cons.mpr ⟨fun address member inFront => ?_, visits.order⟩
    exact visits.ne_nil member (List.prefix_nil.mp inFront)

/-- The address of a node in a list with one more node in front. -/
def behind : List Nat → List Nat
  | [] => []
  | index :: address => (index + 1) :: address

/-- Behind one more node, an address is in front of another one only if it was before. -/
theorem prefix_of_behind {first second : List Nat} (nonempty : second ≠ [])
    (inFront : behind second <+: behind first) : second <+: first := by
  cases second with
  | nil => exact absurd rfl nonempty
  | cons index second =>
    cases first with
    | nil => cases List.prefix_nil.mp inFront
    | cons index' first =>
      obtain ⟨same, inFront⟩ := List.cons_prefix_cons.mp inFront
      exact List.cons_prefix_cons.mpr ⟨Nat.succ.inj same, inFront⟩

/-- A walk over a node, and then over those behind it. -/
theorem cons (first : Visits node.at? addresses walk) (second : Visits (nodeAt? rest) more later) :
    Visits (nodeAt? (node :: rest)) (addresses.map (0 :: ·) ++ more.map behind)
      (walk ++ later) where
  found := by
    rw [List.map_append, List.map_append, List.map_map, List.map_map, ← first.found, ← second.found]
    congr 1
    exact List.map_congr_left fun address _ => by cases address <;> rfl
  all := by
    intro address isFound
    match address with
    | [] => cases isFound
    | 0 :: address =>
      exact List.mem_append_left _ (List.mem_map_of_mem (first.all address isFound))
    | (index + 1) :: address =>
      have member := second.all (index :: address) isFound
      exact List.mem_append_right _ (List.mem_map.mpr ⟨_, member, rfl⟩)
  order := by
    refine List.pairwise_append.mpr ⟨?_, ?_, ?_⟩
    · exact List.pairwise_map.mpr (first.order.imp fun apart inFront =>
        apart (List.cons_prefix_cons.mp inFront).2)
    · exact List.pairwise_map.mpr (second.order.imp_of_mem fun _ isSecond apart inFront =>
        apart (prefix_of_behind (second.ne_nil isSecond) inFront))
    · intro address isFirst address' isSecond inFront
      obtain ⟨inner, -, rfl⟩ := List.mem_map.mp isFirst
      obtain ⟨other, member, rfl⟩ := List.mem_map.mp isSecond
      cases other with
      | nil => exact second.ne_nil member rfl
      | cons index other => cases (List.cons_prefix_cons.mp inFront).1

/-- A list is walked over if each of its nodes is. -/
theorem exists_of_each
    (each : ∀ node ∈ nodes, ∃ addresses, Visits node.at? addresses node.preorder) :
    ∃ addresses, Visits (nodeAt? nodes) addresses (nodesPreorder nodes) := by
  induction nodes with
  | nil =>
    refine ⟨[], rfl, fun address isFound => ?_, .nil⟩
    cases address <;> cases isFound
  | cons node rest ih =>
    obtain ⟨first, others⟩ := List.forall_mem_cons.mp each
    obtain ⟨addresses, visits⟩ := first
    obtain ⟨more, visits'⟩ := ih others
    exact ⟨_, visits.cons visits'⟩

/-- The walk over a node goes over its addresses. -/
theorem exists_preorder (node : Node) :
    ∃ addresses, Visits node.at? addresses node.preorder := by
  obtain ⟨addresses, visits⟩ := exists_of_each fun child (member : child ∈ node.inside) =>
    exists_preorder child
  rw [node.preorder_eq]
  exact ⟨_, visits.enter⟩
termination_by sizeOf node
decreasing_by exact Node.sizeOf_lt_of_mem_inside member

/-- **The preorder visits every node once**, before the nodes inside it. -/
theorem exists_nodesPreorder (nodes : List Node) :
    ∃ addresses, Visits (nodeAt? nodes) addresses (nodesPreorder nodes) :=
  exists_of_each fun node _ => exists_preorder node

end Visits

/-- The nodes inside a node come in order behind its start. -/
theorem Node.Spaced.behind {exact : Prop} (spaced : node.Spaced exact)
    (tagged : node.Tagged source) (nonempty : node.span.start < node.span.stop) :
    Spread False (node.span.start + 1) (node.inside.map Node.span) node.span.stop := by
  have later : ∀ child ∈ node.inside, node.span.start < child.span.start := by
    cases node with
    | text | comment | expression | tag => exact nofun
    | element => exact tagged.2
    | block span kind header body branches =>
      -- The opening tag of a block is not empty, and lies in front of its body.
      obtain ⟨startIs, opens, meets, filled, last, chained, upTo⟩ := spaced
      have spread := (filled.sublist (List.Sublist.refl _)).append (chained.spread upTo)
      rw [← List.map_append] at spread
      intro child member
      have from_ := (spread.lt_stop_of_mem (List.mem_map_of_mem member)).1
      have headed := meets.1
      show span.start < child.span.start
      omega
  have spread := spaced.inside
  cases inside : node.inside with
  | nil => exact ⟨nonempty, False.elim⟩
  | cons first rest =>
    rw [inside] at spread later
    exact ⟨⟨later first List.mem_cons_self, False.elim⟩, spread.2⟩

namespace Onward

/-- A walk over a list, if that over each of its nodes goes forward. -/
theorem of_each (spread : Spread False lo (nodes.map Node.span) hi)
    (each : ∀ node ∈ nodes, Onward node.span.start node.span.stop node.preorder) :
    Onward lo hi (nodesPreorder nodes) := by
  induction nodes generalizing lo with
  | nil => exact ⟨nofun, .nil⟩
  | cons node rest ih =>
    obtain ⟨meets, -, behind⟩ := spread
    obtain ⟨first, others⟩ := List.forall_mem_cons.mp each
    have second := ih behind others
    have from_ := meets.1
    have upTo := behind.le
    rw [nodesPreorder]
    constructor
    · intro inner member
      rcases List.mem_append.mp member with isFirst | isSecond
      · have placed := first.within inner isFirst
        omega
      · have placed := second.within inner isSecond
        have nonempty := (first.within node (Node.mem_preorder.mpr (.inl rfl))).2.1
        omega
    · refine List.pairwise_append.mpr ⟨first.forward, second.forward, ?_⟩
      intro inner isFirst other isSecond
      have before := first.within inner isFirst
      have after := second.within other isSecond
      omega

/-- The walk over a node that lies well goes forward in the source. -/
theorem preorder (node : Node) (nonempty : node.span.start < node.span.stop)
    (good : ∀ inner ∈ node.preorder, inner.Spaced False ∧ inner.Tagged source) :
    Onward node.span.start node.span.stop node.preorder := by
  obtain ⟨spaced, tagged⟩ := good node (Node.mem_preorder.mpr (.inl rfl))
  have spread := spaced.behind tagged nonempty
  have inside : Onward (node.span.start + 1) node.span.stop (nodesPreorder node.inside) :=
    of_each spread fun child (member : child ∈ node.inside) =>
      preorder child (spread.lt_stop_of_mem (List.mem_map_of_mem member)).2 fun inner isIn =>
        good inner (Node.mem_preorder.mpr (.inr ⟨child, member, isIn⟩))
  rw [node.preorder_eq]
  constructor
  · refine List.forall_mem_cons.mpr ⟨⟨Nat.le_refl _, nonempty, Nat.le_refl _⟩, fun inner isIn => ?_⟩
    have placed := inside.within inner isIn
    omega
  · exact List.pairwise_cons.mpr ⟨fun inner isIn => (inside.within inner isIn).1, inside.forward⟩
termination_by sizeOf node
decreasing_by exact Node.sizeOf_lt_of_mem_inside member

end Onward

/-- How the nodes, the scripts and the style of a document lie, with faults or without. -/
theorem exists_spread_read (source : Text) : ∃ hi,
    Spread False 0 ((read source).1.template.nodes.map Node.span) hi ∧
      (∀ node ∈ (read source).1.template.nodes,
        Onward node.span.start node.span.stop node.preorder) ∧
        ∀ node ∈ (read source).1.template.nodes, ∀ other ∈ (read source).1.rawSpans,
          node.span.stop ≤ other.start ∨ other.stop ≤ node.span.start := by
  have spaced := Draft.start_run_spaced False source False.elim
  have tagged := (tagged_read source).nodes
  obtain ⟨spans, top, -, tiles, perm, sub⟩ := spaced.parts
  have spread := tiles.sublist sub
  refine ⟨top, spread, fun node member => ?_, fun node member other isRaw => ?_⟩
  · have nonempty := (spread.lt_stop_of_mem (List.mem_map_of_mem member)).2
    refine Onward.preorder node nonempty fun inner isIn => ⟨?_, tagged inner ?_⟩
    · exact spaced.nodes node (List.mem_reverse.mp member) inner isIn
    · exact mem_nodesPreorder.mpr ⟨node, member, isIn⟩
  · have apart : (Draft.start source).run.parts.Pairwise fun first second =>
        first.stop ≤ second.start ∨ second.stop ≤ first.start :=
      (perm.pairwise_iff fun {_ _} => Or.symm).mpr (tiles.pairwise.imp .inl)
    exact (List.pairwise_append.mp apart).2.2 node.span (List.mem_map_of_mem member) other isRaw

/-- A component is an element named as one, or one of the special elements that stand for one. -/
theorem isComponent_iff {role : Role} : role.isComponent = true ↔
    (∃ name selfClosing, role = .component name selfClosing) ∨ role = .special .self ∨
      role = .special .component := by
  cases role with
  | element name selfClosing => simp [Role.isComponent]
  | component name selfClosing => simp [Role.isComponent]
  | special kind => cases kind <;> simp [Role.isComponent, SpecialElement.isComponent]

/-- The usage that is found for a node is the one that it hands over. -/
theorem ofNode?_eq_some_iff {usage : Usage} :
    Usage.ofNode? node = some usage ↔ node.Hands usage := by
  cases node with
  | text | comment | expression | tag | block =>
    exact ⟨nofun, fun ⟨_, _, _, _, isElement, _⟩ => nomatch isElement⟩
  | element span role attributes children =>
    constructor
    · intro found
      obtain ⟨isComponent, classes⟩ := Option.ite_none_right_eq_some.mp found
      exact ⟨span, role, attributes, children, rfl, isComponent_iff.mp isComponent,
        ofAttributes?_eq_some_iff.mp classes⟩
    · rintro ⟨span, role, attributes, children, isElement, isComponent, classes⟩
      cases isElement
      exact Option.ite_none_right_eq_some.mpr
        ⟨isComponent_iff.mpr isComponent, ofAttributes?_eq_some_iff.mpr classes⟩

/-- What is collected on a walk is one usage for each node that hands classes over, in order. -/
theorem exists_carriers (walk : List Node) : ∃ carriers, carriers.Sublist walk ∧
    (∀ node ∈ walk, node ∈ carriers ↔ ∃ usage, node.Hands usage) ∧
      List.Forall₂ Node.Hands carriers (walk.filterMap Usage.ofNode?) := by
  refine ⟨walk.filter fun node => (Usage.ofNode? node).isSome, List.filter_sublist, ?_, ?_⟩
  · intro node member
    rw [List.mem_filter, Option.isSome_iff_exists]
    exact ⟨fun ⟨_, usage, found⟩ => ⟨usage, ofNode?_eq_some_iff.mp found⟩,
      fun ⟨usage, hands⟩ => ⟨member, usage, ofNode?_eq_some_iff.mpr hands⟩⟩
  · induction walk with
    | nil => exact .nil
    | cons node rest ih =>
      cases found : Usage.ofNode? node with
      | none => simpa [found] using ih
      | some usage =>
        simpa [found] using ⟨ofNode?_eq_some_iff.mp found, ih⟩

/-- The classes that a component hands over stand in its tag. -/
theorem Node.Hands.within {usage : Usage} (hands : node.Hands usage)
    (tagged : node.Tagged source) :
    node.span.start ≤ usage.span.start ∧ usage.span.stop ≤ node.span.stop := by
  have found := ofNode?_eq_some_iff.mpr hands
  cases node with
  | text | comment | expression | tag | block => cases found
  | element span role attributes children =>
    obtain ⟨⟨tag, ⟨cursor, -, starts, read, ends⟩, tagStart, rfl⟩, -⟩ := tagged
    obtain ⟨-, holds⟩ := openTag_holds_usage read found
    have from_ := holds.start_le
    have upTo := holds.le_stop
    show span.start ≤ usage.span.start ∧ usage.span.stop ≤ span.stop
    omega

/-- No class that is handed over stands in a script or the style. -/
theorem usages_apart_raw (source : Text) {usage : Usage} (member : usage ∈ (read source).1.usages)
    {other : Span} (isRaw : other ∈ (read source).1.rawSpans) :
    usage.span.stop ≤ other.start ∨ other.stop ≤ usage.span.start := by
  obtain ⟨-, -, onward, apart⟩ := exists_spread_read source
  obtain ⟨node, isNode, found⟩ := List.mem_filterMap.mp member
  obtain ⟨root, isRoot, isIn⟩ := mem_nodesPreorder.mp isNode
  have inNode := (ofNode?_eq_some_iff.mp found).within ((tagged_read source).nodes node isNode)
  have inRoot := (onward root isRoot).within node isIn
  rcases apart root isRoot other isRaw with before | after
  · exact .inl (by omega)
  · exact .inr (by omega)

/-- **The walk and what it collects.** In a document that is read without faults, the walk goes over
every node once, before the nodes inside it, and forward in the source. Each component on it whose
first attribute named `class` starts with literal text hands over that text, and nothing else is
collected. The texts stand in the source one behind the other, outside the scripts and the style. -/
theorem read?_walk (done : read? source = .ok document) :
    let walk := nodesPreorder document.template.nodes
    (∃ addresses, Visits (nodeAt? document.template.nodes) addresses walk) ∧
      walk.Pairwise (fun first second => first.span.start < second.span.start) ∧
      (∃ carriers, carriers.Sublist walk ∧
        (∀ node ∈ walk, node ∈ carriers ↔ ∃ usage, node.Hands usage) ∧
          List.Forall₂ Node.Hands carriers document.usages) ∧
      document.usages.Pairwise (fun first second => first.span.stop ≤ second.span.start) ∧
      ∀ usage ∈ document.usages, usage.span.start < usage.span.stop ∧
        source.Stands usage.span.start usage.span.stop usage.group ∧
          ∀ other ∈ document.rawSpans,
            usage.span.stop ≤ other.start ∨ other.stop ≤ usage.span.start := by
  have placed := placed_of_read? done
  have isRead : (read source).1 = document := congrArg Prod.fst (read_eq_of_read? done)
  obtain ⟨hi, spread, each, -⟩ := exists_spread_read source
  have onward := Onward.of_each spread each
  rw [isRead] at onward
  refine ⟨Visits.exists_nodesPreorder _, onward.forward, exists_carriers _, placed.ordered, ?_⟩
  intro usage member
  obtain ⟨nonempty, stands⟩ := placed.holds usage member
  refine ⟨stands.start_lt_stop nonempty, stands, fun other isRaw => ?_⟩
  subst isRead
  exact usages_apart_raw source member isRaw

/-- A component in a block. -/
def guardedCard : Text := "\x7b#if a\x7d<A class=b/>\x7b/if\x7d".toList

/-- What is read of it. -/
def guardedDocument : Document :=
  ⟨none, none, none, ⟨[.block ⟨0, 24⟩ .conditional ⟨⟨0, 7⟩, ⟨5, 6⟩, "a"⟩
    ⟨[.element ⟨7, 19⟩ (.component "A" true) [.named ⟨10, 17⟩ "class" (.text ⟨⟨16, 17⟩, "b"⟩)] []],
      ⟨7, 19⟩⟩ []], ⟨0, 24⟩⟩⟩

/-- The block, opened. -/
def guardedBlock : Draft := ⟨⟨7, "<A class=b/>\x7b/if\x7d".toList⟩,
  [.block ⟨.conditional, ⟨⟨0, 7⟩, ⟨5, 6⟩, "a"⟩, .body, 7, []⟩], [], none, none, none, []⟩

/-- Of the block, the component is read, up to its end tag. -/
theorem readElement_guardedBlock : guardedBlock.readElement = ⟨⟨19, "\x7b/if\x7d".toList⟩,
    [.block ⟨.conditional, ⟨⟨0, 7⟩, ⟨5, 6⟩, "a"⟩, .body, 7, [.element ⟨7, 19⟩ (.component "A" true)
      [.named ⟨10, 17⟩ "class" (.text ⟨⟨16, 17⟩, "b"⟩)] []]⟩], [], none, none, none, []⟩ := by
  have first : attribute? guardedBlock.cursor.bump.bump =
      some ⟨some (.named ⟨10, 17⟩ "class" (.text ⟨⟨16, 17⟩, "b"⟩)), [],
        ⟨17, "/>\x7b/if\x7d".toList⟩⟩ := by rfl
  have tag := openTag_of_attribute? (show guardedBlock.cursor.tagName? = some "A" by rfl) first
    rfl rfl
  unfold Draft.readElement
  rw [tag]
  rfl

/-- The block with the component is read. -/
theorem read?_guardedCard : read? guardedCard = .ok guardedDocument := by
  have opens : (Draft.start guardedCard).step = some guardedBlock := by rfl
  have element : guardedBlock.step = some guardedBlock.readElement := by rfl
  have closes : guardedBlock.readElement.step =
      some ⟨⟨24, []⟩, [], guardedDocument.template.nodes, none, none, none, []⟩ := by
    rw [readElement_guardedBlock]
    rfl
  unfold read? Markup.read
  rw [Draft.run_of_step opens, Draft.run_of_step element, Draft.run_of_step closes,
    Draft.run_of_step_eq_none (by rfl)]
  rfl

/-- The walk goes over the block and then over the component in it, whose class is collected. -/
theorem read?_walk_guardedCard :
    (∃ addresses, Visits (nodeAt? guardedDocument.template.nodes) addresses
      (nodesPreorder guardedDocument.template.nodes)) ∧
      guardedDocument.usages = [⟨['b'], ⟨16, 17⟩⟩] ∧ guardedCard.Stands 16 17 ['b'] := by
  have walked := read?_walk read?_guardedCard
  have usages : guardedDocument.usages = [⟨['b'], ⟨16, 17⟩⟩] := by decide
  have member : ⟨['b'], ⟨16, 17⟩⟩ ∈ guardedDocument.usages := usages ▸ List.mem_cons_self
  exact ⟨walked.1, usages, (walked.2.2.2.2 _ member).2.1⟩

end ClassHoist.Markup
