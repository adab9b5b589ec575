import ClassHoist.Proofs.Replays
import ClassHoist.Proofs.Tiling

/-! # Nodes inside each other

Where a node stands in a document is told by the elements and blocks around it (`Inside`), and these
settle which tags can end it. An element ends with its opening tag or by its own closing tag, and an
element of the document can also end where another tag stands that closes it (`ElementEnds`); a
block ends by its own ending tag (`Node.EndsWell`).
-/

namespace ClassHoist.Markup

/-- The part after `svelte:` of the name of a special element. -/
def SpecialElement.suffix : SpecialElement → String
  | .self => "self"
  | .component => "component"
  | .element => "element"
  | .window => "window"
  | .document => "document"
  | .body => "body"
  | .head => "head"
  | .options => "options"
  | .fragment => "fragment"
  | .boundary => "boundary"

/-- A word that names a special element is its suffix. -/
theorem SpecialElement.suffix_of_ofSuffix? {word : String} {kind : SpecialElement}
    (found : ofSuffix? word = some kind) : kind.suffix = word := by
  unfold ofSuffix? at found
  split at found <;> simp_all <;> subst found <;> rfl

namespace Role

/-- The name in the tags of an element. -/
def name : Role → String
  | .element name _ => name
  | .component name _ => name
  | .special kind => "svelte:" ++ kind.suffix

/-- An element of a name has that name. -/
theorem name_ofName (name : String) (selfClosing : Bool) :
    (Role.ofName name selfClosing).name = name := by
  unfold Role.ofName
  cases special : specialElement? name with
  | none => cases namesComponent name <;> rfl
  | some kind =>
    obtain ⟨suffix, isSuffix, isKind⟩ := Option.bind_eq_some_iff.mp special
    obtain ⟨rest, lead, rfl⟩ := Option.map_eq_some_iff.mp isSuffix
    show "svelte:" ++ kind.suffix = name
    rw [SpecialElement.suffix_of_ofSuffix? isKind, ← String.toList_inj, String.toList_append,
      Text.dropLead?_eq_some.mp lead, @String.toList_ofList rest]

/-- An element as far as the closing tags inside it are concerned. -/
def scope (role : Role) : Scope :=
  match role with
  | .element name _ => .element name
  | _ => .component role.name

end Role

/-- A node as far as the closing tags inside it are concerned; only elements and blocks have any. -/
def Node.scope : Node → Scope
  | .element _ role _ _ => role.scope
  | _ => .block

/-- A node is in a tree if it is the root or in the tree of a node directly inside the root. -/
theorem Node.mem_preorder {root node : Node} :
    node ∈ root.preorder ↔ node = root ∨ ∃ child ∈ root.inside, node ∈ child.preorder := by
  cases root with
  | text | comment | expression | tag => simp [preorder, inside]
  | element => simp [preorder, inside, mem_nodesPreorder]
  | block span kind header body branches =>
    obtain ⟨nodes, bodySpan⟩ := body
    simp only [preorder, inside, List.mem_cons, List.mem_append, mem_nodesPreorder,
      mem_branchesPreorder, List.mem_flatMap]
    grind

/-- A node inside another one is smaller. -/
theorem Node.sizeOf_lt_of_mem_inside {root child : Node} (member : child ∈ root.inside) :
    sizeOf child < sizeOf root := by
  cases root with
  | text | comment | expression | tag => cases member
  | element span role attributes children =>
    have smaller : sizeOf child < sizeOf children := List.sizeOf_lt_of_mem member
    simp only [element.sizeOf_spec]
    omega
  | block span kind header body branches =>
    obtain ⟨nodes, bodySpan⟩ := body
    simp only [block.sizeOf_spec, Fragment.mk.sizeOf_spec]
    rcases List.mem_append.mp member with inBody | inBranches
    · have smaller : sizeOf child < sizeOf nodes := List.sizeOf_lt_of_mem inBody
      omega
    · obtain ⟨⟨branchSpan, branchKind, code, ⟨branchNodes, fragmentSpan⟩⟩, isBranch, isIn⟩ :=
        List.mem_flatMap.mp inBranches
      have smaller : sizeOf child < sizeOf branchNodes := List.sizeOf_lt_of_mem isIn
      have listed := List.sizeOf_lt_of_mem isBranch
      simp only [Branch.mk.sizeOf_spec, Fragment.mk.sizeOf_spec] at listed
      omega

/-- A node stands in a list of nodes, or inside one of them, and these are the elements and blocks
around it, innermost first; those around the whole list are the outermost of them. -/
inductive Inside (around : List Scope) (nodes : List Node) : List Scope → Node → Prop
  | top {node : Node} : node ∈ nodes → Inside around nodes around node
  | inner {scopes : List Scope} {node child : Node} : Inside around nodes scopes node →
      child ∈ node.inside → Inside around nodes (node.scope :: scopes) child

namespace Inside

variable {around scopes : List Scope} {nodes : List Node} {node : Node}

/-- A node stands in every list that has the nodes of its own. -/
theorem mono {more : List Node} (inside : Inside around nodes scopes node)
    (subset : ∀ node ∈ nodes, node ∈ more) : Inside around more scopes node := by
  induction inside with
  | top member => exact .top (subset _ member)
  | inner _ member ih => exact .inner ih member

/-- What stands in a list stands in one of its nodes. -/
theorem exists_mem (inside : Inside around nodes scopes node) :
    ∃ root ∈ nodes, Inside around [root] scopes node := by
  induction inside with
  | top member => exact ⟨_, member, .top (List.mem_singleton_self _)⟩
  | inner _ member ih =>
    obtain ⟨root, isRoot, inRoot⟩ := ih
    exact ⟨root, isRoot, .inner inRoot member⟩

/-- What stands in a node is the node itself, or stands in the nodes directly inside it. -/
theorem of_root {root : Node} (inside : Inside around [root] scopes node) :
    (scopes = around ∧ node = root) ∨ Inside (root.scope :: around) root.inside scopes node := by
  induction inside with
  | top member => exact .inl ⟨rfl, List.mem_singleton.mp member⟩
  | inner _ member ih =>
    rcases ih with ⟨rfl, rfl⟩ | deeper
    · exact .inr (.top member)
    · exact .inr (.inner deeper member)

/-- A node in the tree of one that stands in a list stands in the list. -/
theorem exists_of_preorder {scopes : List Scope} {root : Node} (inside : Inside around nodes scopes root)
    (member : node ∈ root.preorder) : ∃ scopes, Inside around nodes scopes node := by
  rcases Node.mem_preorder.mp member with rfl | ⟨child, isChild, isIn⟩
  · exact ⟨scopes, inside⟩
  · exact exists_of_preorder (.inner inside isChild) isIn
termination_by sizeOf root
decreasing_by exact Node.sizeOf_lt_of_mem_inside isChild

/-- Each node of a tree stands somewhere in it. -/
theorem exists_of_mem_preorder (around : List Scope) (member : node ∈ nodesPreorder nodes) :
    ∃ scopes, Inside around nodes scopes node := by
  obtain ⟨root, isRoot, isIn⟩ := mem_nodesPreorder.mp member
  exact exists_of_preorder (.top isRoot) isIn

end Inside

/-- An opening tag stands in a source from one offset up to another. -/
def OpenTagAt (source : Text) (start : Nat) (tag : OpenTag) (stop : Nat) : Prop :=
  ∃ before more rest, source = before ++ '<' :: more ∧ Text.bytes before = start ∧
    leadingName? more = some tag.name.toList ∧
      openTag ⟨start, '<' :: more⟩ = ⟨some tag, [], ⟨stop, rest⟩⟩

/-- The closing tag of an element of the name stands in a source from one offset up to another. -/
def ClosingTagAt (source : Text) (name : String) (start stop : Nat) : Prop :=
  ∃ blanks, (∀ c ∈ blanks, Text.isSeparator c = true) ∧
    Text.Stands source start stop (closingLead name ++ (blanks ++ ['>']))

/-- The ending tag of a block of the kind stands in a source from one offset up to another. -/
def EndingTagAt (source : Text) (kind : BlockKind) (start stop : Nat) : Prop :=
  ∃ inner, Text.trim inner = kind.keyword.toList ∧
    Text.Stands source start stop ('\x7b' :: '/' :: (inner ++ ['\x7d']))

/-- An element of the document of the name is around a place, or a component or special element of
the name is, with only elements of the document inside it around the place. -/
def InReach (name : String) (scopes : List Scope) : Prop :=
  ∃ (between : List String) (outer : List Scope),
    scopes = between.map Scope.element ++ .element name :: outer ∨
      scopes = between.map Scope.element ++ .component name :: outer

/-- A name that closes something around a place is in reach there. -/
theorem inReach_of_closesEnclosing {name : String} {scopes : List Scope}
    (closes : closesEnclosing name scopes = true) : InReach name scopes := by
  induction scopes with
  | nil => cases closes
  | cons scope outer ih =>
    cases scope with
    | block => cases closes
    | component other =>
      obtain rfl := beq_iff_eq.mp closes
      exact ⟨[], outer, .inr rfl⟩
    | element other =>
      rcases Bool.or_eq_true_iff.mp closes with same | further
      · obtain rfl := beq_iff_eq.mp same
        exact ⟨[], outer, .inl rfl⟩
      · obtain ⟨between, around, element | component⟩ := ih further
        · exact ⟨other :: between, around, .inl (congrArg (Scope.element other :: ·) element)⟩
        · exact ⟨other :: between, around, .inr (congrArg (Scope.element other :: ·) component)⟩

/-- The ways in which an element can end whose opening tag ends at `inside`, by the offset at which
it ends: with its opening tag, if there is no closing tag; with its own closing tag, behind
everything inside it; where the opening tag of a sibling stands that closes it; or where the closing
tag of another element around it stands. -/
inductive ElementEnds (source : Text) (scopes : List Scope) (tag : OpenTag) (role : Role)
    (children : List Node) (inside : Nat) : Nat → Prop
  | opening : tag.selfClosing = true ∨ (role = .element tag.name false ∧ isVoid tag.name = true) →
      children = [] → ElementEnds source scopes tag role children inside inside
  | closing {place stop : Nat} : inside ≤ place → (∀ child ∈ children, child.span.stop ≤ place) →
      ClosingTagAt source tag.name place stop →
        ElementEnds source scopes tag role children inside stop
  | sibling {stop after : Nat} {next : OpenTag} : role = .element tag.name false →
      OpenTagAt source stop next after → next.name ∈ closedBy tag.name →
        ElementEnds source scopes tag role children inside stop
  | outer {stop after : Nat} {name : String} : role = .element tag.name false →
      ClosingTagAt source name stop after → name ≠ tag.name → InReach name scopes →
        ElementEnds source scopes tag role children inside stop

/-- The node ends as one of its kind has to, if these elements and blocks are around it: an element
in one of the ways an element can end, and a block by its own ending tag, behind everything inside
it. -/
def Node.EndsWell (source : Text) (scopes : List Scope) : Node → Prop
  | .element span role attributes children =>
    ∃ tag inside, OpenTagAt source span.start tag inside ∧
      role = .ofName tag.name tag.selfClosing ∧ attributes = tag.attributes ∧
        ElementEnds source scopes tag role children inside span.stop
  | .block span kind header body branches =>
    ∃ place, EndingTagAt source kind place span.stop ∧ header.span.stop ≤ place ∧
      ∀ node ∈ (Node.block span kind header body branches).inside, node.span.stop ≤ place
  | _ => True

/-- All nodes of a list and inside them end well, if these elements and blocks are around the
list. -/
def Closed (source : Text) (around : List Scope) (nodes : List Node) : Prop :=
  ∀ scopes node, Inside around nodes scopes node → node.EndsWell source scopes

section Closed

variable {source : Text} {around : List Scope} {nodes : List Node} {node : Node}

/-- Where there is no node, all end well. -/
theorem closed_nil : Closed source around [] := by
  intro scopes node inside
  obtain ⟨root, isRoot, -⟩ := inside.exists_mem
  cases isRoot

/-- Some nodes of those that end well end well. -/
theorem Closed.subset {some : List Node} (closed : Closed source around nodes)
    (subset : ∀ node ∈ some, node ∈ nodes) : Closed source around some :=
  fun scopes node inside => closed scopes node (inside.mono subset)

/-- A node and others end well if it does and they do. -/
theorem Closed.cons (first : Closed source around [node]) (rest : Closed source around nodes) :
    Closed source around (node :: nodes) := by
  intro scopes inner inside
  obtain ⟨root, isRoot, inRoot⟩ := inside.exists_mem
  rcases List.mem_cons.mp isRoot with rfl | later
  · exact first scopes inner inRoot
  · exact rest scopes inner (inRoot.mono fun other isOther => by
      rwa [List.mem_singleton.mp isOther])

/-- A node ends well if it does itself and all inside it do. -/
theorem closed_singleton (ends : node.EndsWell source around)
    (inner : Closed source (node.scope :: around) node.inside) : Closed source around [node] := by
  intro scopes other inside
  rcases inside.of_root with ⟨rfl, rfl⟩ | deeper
  · exact ends
  · exact inner scopes other deeper

/-- Only elements and blocks have to end in a certain way, and hold other nodes. -/
structure Node.Leaf (node : Node) : Prop where
  alone : node.inside = []
  ends : ∀ source scopes, node.EndsWell source scopes

/-- Nodes that hold nothing end well. -/
theorem closed_leaves (leaves : ∀ node ∈ nodes, node.Leaf) : Closed source around nodes := by
  induction nodes with
  | nil => exact closed_nil
  | cons first rest ih =>
    have leaf := leaves first List.mem_cons_self
    refine (closed_singleton (leaf.ends source around) ?_).cons
      (ih fun other member => leaves other (List.mem_cons_of_mem _ member))
    rw [leaf.alone]
    exact closed_nil

end Closed

/-- A run of text is a node that holds nothing. -/
theorem leaf_of_mem_run {text : Text} {span : Span} {node : Node}
    (member : node ∈ if text.isEmpty then [] else [Node.text span (String.ofList text)]) :
    node.Leaf := by
  split at member
  · cases member
  · rw [List.mem_singleton.mp member]
    exact ⟨rfl, fun _ _ => trivial⟩

/-- Text and expressions are nodes that hold nothing. -/
theorem leaf_of_mem_textContent (name : String) (cursor : Cursor) :
    ∀ node ∈ (textContent name cursor).value, node.Leaf := by
  fun_induction textContent name cursor with
  | case1 => exact fun node member => leaf_of_mem_run member
  | case2 cursor stops found place leading inside left inner after closed stop _ _ _ _ more ih =>
    intro node member
    rcases List.mem_append.mp member with inRun | member
    · exact leaf_of_mem_run inRun
    · rcases List.mem_cons.mp member with rfl | later
      · exact ⟨rfl, fun _ _ => trivial⟩
      · exact ih node later
  | case3 => exact fun node member => leaf_of_mem_run member

end ClassHoist.Markup
