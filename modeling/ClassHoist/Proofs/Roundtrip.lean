import ClassHoist.Proofs.Enclosure
import ClassHoist.Proofs.PrintedTags

/-! # Printed trees are read again

In front of any text, what is printed of a node is read as that node and nothing else
(`Node.Rereads`): whatever is open, the same draft is reached as by adding the node
(`Draft.Yields`). Elements and blocks are read again if the nodes inside them are, so every
printable node is (`Node.Printable.rereads`), and a printed list of them is read without faults as
the same nodes (`read?_print`).
-/

namespace ClassHoist.Markup

variable {draft : Draft} {node : Node} {nodes : List Node} {rest : Text} {outer : List Opened}

/-- Add nodes to what is open. -/
def Opened.addAll (nodes : List Node) : Opened → Opened
  | .element entry => .element { entry with children := nodes.reverse ++ entry.children }
  | .block entry => .block { entry with nodes := nodes.reverse ++ entry.nodes }

/-- Nodes may be added to what is open one by one. -/
theorem Opened.addAll_add (node : Node) (nodes : List Node) (opened : Opened) :
    (opened.add node).addAll nodes = opened.addAll (node :: nodes) := by
  cases opened with
  | element | block =>
    simp only [add, addAll, List.reverse_cons, List.append_assoc, List.singleton_append]

namespace Draft

/-- Add nodes, one after another. -/
def addAll (draft : Draft) (nodes : List Node) : Draft := nodes.foldl add draft

/-- At top level, added nodes are those of the draft. -/
theorem addAll_top (isOpen : draft.opened = []) :
    draft.addAll nodes = { draft with nodes := nodes.reverse ++ draft.nodes } := by
  induction nodes generalizing draft with
  | nil => rfl
  | cons node nodes ih =>
    have added : draft.add node = { draft with nodes := node :: draft.nodes } := by
      unfold add
      simp only [isOpen]
    have isOpen' : ({ draft with nodes := node :: draft.nodes } : Draft).opened = [] := isOpen
    have others := ih isOpen'
    rw [addAll, List.foldl_cons, added, ← addAll, others, List.reverse_cons, List.append_assoc,
      List.singleton_append]

/-- Below the top level, added nodes are those of the innermost element or block. -/
theorem addAll_opened {innermost : Opened} (isOpen : draft.opened = innermost :: outer) :
    draft.addAll nodes = { draft with opened := innermost.addAll nodes :: outer } := by
  induction nodes generalizing draft innermost with
  | nil =>
    cases innermost <;> exact congrArg (fun opened => { draft with opened }) isOpen
  | cons node nodes ih =>
    have added : draft.add node = { draft with opened := innermost.add node :: outer } := by
      unfold add
      simp only [isOpen]
    rw [addAll, List.foldl_cons, added, ← addAll, ih rfl, Opened.addAll_add]

/-- Nodes may be added before or after a move. -/
theorem moveTo_addAll (draft : Draft) (nodes : List Node) (cursor : Cursor) :
    (draft.addAll nodes).moveTo cursor = (draft.moveTo cursor).addAll nodes := by
  have moved : (draft.moveTo cursor).opened = draft.opened := rfl
  cases isOpen : draft.opened with
  | nil =>
    rw [addAll_top isOpen, addAll_top (moved.trans isOpen)]
    rfl
  | cons innermost outer =>
    rw [addAll_opened isOpen, addAll_opened (moved.trans isOpen)]
    rfl

/-- Adding nodes does not move the place. -/
theorem cursor_addAll (draft : Draft) (nodes : List Node) :
    (draft.addAll nodes).cursor = draft.cursor := by
  cases isOpen : draft.opened with
  | nil => rw [addAll_top isOpen]
  | cons innermost outer => rw [addAll_opened isOpen]

/-- Adding nodes opens and closes nothing. -/
theorem scopes_addAll (draft : Draft) (nodes : List Node) :
    (draft.addAll nodes).scopes = draft.scopes := by
  cases isOpen : draft.opened with
  | nil =>
    rw [addAll_top isOpen]
    rfl
  | cons innermost outer =>
    rw [addAll_opened isOpen, scopes, scopes, isOpen]
    cases innermost <;> rfl

/-- The draft is read to its end as if it went on with the rest after these nodes had been added to
it, wherever they stand. -/
def Yields (draft : Draft) (nodes : List Node) (rest : Text) : Prop :=
  ∃ cursor found, cursor.rest = rest ∧ found.map Node.bare = nodes.map Node.bare ∧
    draft.run = ((draft.moveTo cursor).addAll found).run

/-- No nodes are read where the text in front is over. -/
theorem Yields.nil (ends : draft.cursor.rest = rest) : draft.Yields [] rest :=
  ⟨draft.cursor, [], ends, rfl, rfl⟩

/-- A node and those behind it are read, if the node is and the others are from wherever it leaves
off. -/
theorem Yields.cons {middle : Text} (first : draft.Yields [node] middle)
    (others : ∀ next : Draft, next.cursor.rest = middle → next.scopes = draft.scopes →
      next.Yields nodes rest) : draft.Yields (node :: nodes) rest := by
  obtain ⟨cursor, found, isMiddle, same, ran⟩ := first
  obtain ⟨cursor', found', isRest, same', ran'⟩ := others ((draft.moveTo cursor).addAll found)
    (by rw [cursor_addAll]; exact isMiddle) (scopes_addAll _ _)
  refine ⟨cursor', found ++ found', isRest, ?_, ?_⟩
  · rw [List.map_append, same, same', List.map_cons, List.map_nil, List.map_cons,
      List.singleton_append]
  · rw [ran, ran', moveTo_addAll, addAll, addAll, addAll, ← List.foldl_append]
    rfl

/-- A node is read if the run goes on with the same node added. -/
theorem yields_of_run {cursor : Cursor} {found : Node} (ends : cursor.rest = rest)
    (same : found.bare = node.bare) (ran : draft.run = ((draft.moveTo cursor).add found).run) :
    draft.Yields [node] rest :=
  ⟨cursor, [found], ends, congrArg (List.cons · []) same, ran⟩

/-- A construct that opens nothing but what can stand here is read as a node. -/
theorem step_of_construct (starts : StartsConstruct draft.cursor.rest)
    (opens : draft.cursor.token.kind = .commentOpen ∨ draft.cursor.token.kind = .tagOpen ∨
      draft.cursor.token.kind = .blockOpen ∨ draft.cursor.token.kind = .braceOpen)
    (tagged : draft.cursor.token.kind = .tagOpen → ∃ name, draft.cursor.tagName? = some name ∧
      name ∉ ["script", "style"] ∧ closesSibling name draft.scopes = false) :
    draft.step = some draft.readNode := by
  have other (kind : TokenKind)
      (isOther : kind ∉ [.commentOpen, .tagOpen, .blockOpen, .braceOpen]) :
      draft.cursor.token.kind ≠ kind := by
    rintro rfl
    refine isOther ?_
    rcases opens with same | same | same | same <;> rw [same] <;> decide
  cases isOpen : draft.opened with
  | nil =>
    rw [step_of_top starts isOpen (other _ (by decide)), readTop_of_other]
    intro isTag
    obtain ⟨name, named, ordinary, -⟩ := tagged isTag
    rw [named]
    exact ⟨fun same => ordinary (by rw [Option.some.inj same]; decide),
      fun same => ordinary (by rw [Option.some.inj same]; decide)⟩
  | cons innermost outer =>
    cases innermost with
    | block entry =>
      exact step_of_inner starts isOpen ⟨other _ (by decide), other _ (by decide),
        other _ (by decide), other _ (by decide)⟩
    | element entry =>
      refine step_of_child starts isOpen (other _ (by decide)) (other _ (by decide)) ?_
      intro sibling
      obtain ⟨isTag, closes⟩ := Bool.and_eq_true_iff.mp sibling
      obtain ⟨name, named, -, stays⟩ := tagged (beq_iff_eq.mp isTag)
      rw [named, Option.any_some, stays] at closes
      cases closes

/-- In front of a construct a run begins with the step that its first token asks for. -/
theorem run_of_construct {kind : TokenKind} {next : Draft}
    (starts : StartsConstruct draft.cursor.rest) (isKind : draft.cursor.token.kind = kind)
    (opens : kind ∈ [.commentOpen, .blockOpen, .braceOpen]) (read : readAs kind draft = next) :
    draft.run = next.run := by
  have stepped : draft.step = some draft.readNode := by
    refine step_of_construct starts ?_ fun isTag => ?_
    · simp only [List.mem_cons, List.not_mem_nil, or_false] at opens
      rw [isKind]
      tauto
    · rw [isKind] at isTag
      rw [isTag] at opens
      exact absurd opens (by decide)
  rw [run_of_step stepped, readNode_eq, isKind, read]

end Draft

/-- In front of any text, what is printed of the node is read as the node. Text must not go on
behind it, and a tag must not close what is open. -/
def Node.Rereads (node : Node) : Prop :=
  ∀ (draft : Draft) (rest : Text), draft.cursor.rest = node.print ++ rest →
    (node.isText = true → StartsConstruct rest) →
    (∀ name ∈ node.tagName?, closesSibling name draft.scopes = false) → draft.Yields [node] rest

/-- In front of any construct, what is printed of the nodes is read as the nodes. -/
def NodesReread (nodes : List Node) : Prop :=
  ∀ (draft : Draft) (rest : Text), draft.cursor.rest = printNodes nodes ++ rest →
    StartsConstruct rest →
    (∀ node ∈ nodes, ∀ name ∈ node.tagName?, closesSibling name draft.scopes = false) →
    draft.Yields nodes rest

/-- **Nodes are read again if each of them is.** -/
theorem nodesReread (each : ∀ node ∈ nodes, node.Rereads) (apart : TextsApart nodes) :
    NodesReread nodes := by
  induction nodes with
  | nil => exact fun draft rest split _ _ => .nil split
  | cons node others ih =>
    intro draft rest split starts stays
    rw [printNodes, List.append_assoc] at split
    have goesOn : node.isText = true → StartsConstruct (printNodes others ++ rest) := by
      intro isText
      cases others with
      | nil => exact starts
      | cons second others =>
        have noText : second.isText = false := by
          refine (List.isChain_cons_cons.mp apart).1.resolve_left fun noText => ?_
          rw [isText] at noText
          cases noText
        rw [printNodes, List.append_assoc]
        exact startsConstruct_print noText _
    refine .cons (each node List.mem_cons_self draft _ split goesOn (stays node List.mem_cons_self))
      fun next ahead scopes => ?_
    have eachOther : ∀ other ∈ others, other.Rereads :=
      fun other member => each other (List.mem_cons_of_mem node member)
    refine ih eachOther apart.of_cons next rest ahead starts fun other member => ?_
    rw [scopes]
    exact stays other (List.mem_cons_of_mem node member)

/-- Only the innermost element decides whether a sibling closes it. -/
theorem closesSibling_cons (name : String) (scope : Scope) (outer : List Scope) :
    closesSibling name (scope :: outer) = closesSibling name [scope] := by
  cases scope <;> rfl

/-- Nodes inside an element or block are added to it. -/
theorem NodesReread.run_opened (reread : NodesReread nodes) (draft : Draft) {cursor : Cursor}
    (opened : Opened) (outer : List Opened) (split : cursor.rest = printNodes nodes ++ rest)
    (starts : StartsConstruct rest)
    (stays : ∀ node ∈ nodes, ∀ name ∈ node.tagName?, closesSibling name [opened.scope] = false) :
    ∃ cursor' found, cursor'.rest = rest ∧ found.map Node.bare = nodes.map Node.bare ∧
      Draft.run { draft with cursor, opened := opened :: outer } =
        Draft.run { draft with cursor := cursor', opened := opened.addAll found :: outer } := by
  obtain ⟨cursor', found, isRest, same, ran⟩ :=
    reread { draft with cursor, opened := opened :: outer } rest split starts <| by
      intro node member name isName
      rw [Draft.scopes, List.map_cons, closesSibling_cons]
      exact stays node member name isName
  refine ⟨cursor', found, isRest, same, ran.trans (congrArg Draft.run ?_)⟩
  exact Draft.addAll_opened rfl

/-- Text without a start of a construct in it is read again. -/
theorem rereads_text {span : Span} {data : String} (nonempty : data ≠ "")
    (plain : ∀ c ∈ data.toList, isTextChar c = true) : (Node.text span data).Rereads := by
  intro draft rest split starts _
  have someText : data.toList ≠ [] := fun none => nonempty (String.toList_inj.mp none)
  have stepped := Draft.step_of_text plain someText (starts rfl) split
  refine Draft.yields_of_run ?_ ?_ (Draft.run_of_step stepped)
  · rfl
  · rw [String.ofList_toList]
    rfl

/-- A comment that does not hold its end goes on as far as its end. -/
theorem quiet_comment {data : Text} (noEnd : ¬ ['-', '-', '>'] <:+: data) (rest : Text) :
    Quiet (Text.startsWith ['-', '-', '>']) data (['-', '-', '>'] ++ rest) := by
  induction data with
  | nil => trivial
  | cons c data ih =>
    refine ⟨?_, ih fun inside => noEnd (inside.trans (List.suffix_cons c data).isInfix)⟩
    by_contra starts
    obtain ⟨more, split⟩ := eq_append_of_startsWith ((Bool.not_eq_false _).mp starts)
    cases data with
    | nil => cases split
    | cons d data =>
      cases data with
      | nil => cases split
      | cons e data =>
        simp only [List.cons_append, List.cons.injEq] at split
        obtain ⟨rfl, rfl, rfl, -⟩ := split
        exact noEnd ⟨[], data, rfl⟩

/-- A comment that does not hold its own end is read again. -/
theorem rereads_comment {span : Span} {data : String} (noEnd : ¬ ['-', '-', '>'] <:+: data.toList) :
    (Node.comment span data).Rereads := by
  intro draft rest split _ _
  have split' : draft.cursor.rest =
      [] ++ (['<', '!', '-', '-'] ++ (data.toList ++ (['-', '-', '>'] ++ rest))) := by
    rw [split, Node.print, List.append_assoc, List.append_assoc, List.nil_append]
  have begins : Begins .commentOpen [] ['<', '!', '-', '-']
      (data.toList ++ (['-', '-', '>'] ++ rest)) :=
    ⟨nofun, fun c isHead => Option.some.inj isHead ▸ rfl, rfl⟩
  have ends := spanUntil_of_quiet (quiet_comment noEnd rest) (.inr (startsWith_append _ rest))
  obtain ⟨opens, inside⟩ := begins.read_at split'
  have starts : StartsConstruct draft.cursor.rest := by
    rw [split']
    exact startsConstruct_cons rfl _
  have read : ∃ cursor span, cursor.rest = rest ∧
      draft.readComment = (draft.moveTo cursor).add (.comment span data) := by
    unfold Draft.readComment
    simp only [inside, ends, String.ofList_toList]
    exact ⟨_, _, rfl, rfl⟩
  obtain ⟨cursor, span', isRest, read⟩ := read
  refine Draft.yields_of_run isRest ?_
    (Draft.run_of_construct starts opens List.mem_cons_self read)
  rfl

/-- An expression whose brackets and quotes are closed is read again. -/
theorem rereads_expression {embedded : Embedded}
    (printable : Expression.Printable embedded.code.toList) :
    (Node.expression embedded).Rereads := by
  intro draft rest split _ _
  obtain ⟨starts, opens, braced, found, isCode, isRest⟩ := exists_braced_expression printable split
  have read : Draft.readAs .braceOpen draft =
      (draft.moveTo braced.next).add (.expression braced.embedded) := by
    simp only [Draft.readAs, Draft.readExpression, Draft.readBraced, found]
  refine Draft.yields_of_run isRest ?_ (Draft.run_of_construct starts opens (by decide) read)
  simp only [Node.bare, Node.mapSpans, Embedded.mapSpans, Braced.embedded, trimmed, isCode,
    printable.trimmed, String.ofList_toList]

namespace Role.Printable

variable {role : Role} (printable : role.Printable)

include printable

/-- The name of an element is one that a tag can have. -/
theorem tagName : TagName role.name := by
  cases printable with
  | element tagName => exact tagName
  | component tagName => exact tagName

/-- The name of an element is not that of a special element. -/
theorem specialSuffix? : Markup.specialSuffix? role.name = none := by
  refine Option.map_eq_none_iff.mpr (Option.eq_none_iff_forall_ne_some.mpr fun suffix found => ?_)
  exact printable.tagName.ordinary ⟨suffix, (Text.dropLead?_eq_some.mp found).symm⟩

/-- The name of an element tells what element it is. -/
theorem ofName : Role.ofName role.name role.selfClosing = role := by
  have ordinary : specialElement? role.name = none := by
    rw [specialElement?, printable.specialSuffix?, Option.bind_none]
  unfold Role.ofName
  rw [ordinary]
  cases printable with
  | element _ plain =>
    simp only [Role.name, Role.selfClosing, plain, Bool.false_eq_true, ↓reduceIte]
  | component _ isComponent => simp only [Role.name, Role.selfClosing, isComponent, ↓reduceIte]

/-- The name of an element is not that of an unknown special element. -/
theorem not_isUnknownSpecial : isUnknownSpecial role.name = false := by
  rw [isUnknownSpecial, printable.specialSuffix?]
  rfl

/-- No element that may be printed is a script, a style or a text area. -/
theorem name_not_mem : role.name ∉ ["script", "style", "textarea"] := by
  cases printable with
  | element _ _ _ other => exact other
  | component _ isComponent =>
    intro member
    simp only [Role.name, List.mem_cons, List.not_mem_nil, or_false] at member
    rcases member with rfl | rfl | rfl <;> cases isComponent

/-- The content of a printable element is markup unless it closes itself. -/
theorem bodyOf : Markup.bodyOf role.name role.selfClosing =
    if role.selfClosing then .empty else .markup := by
  have isRole := printable.ofName
  have notVoid : role = .element role.name role.selfClosing → isVoid role.name = false := by
    cases printable with
    | element _ _ notVoid => exact fun _ => notVoid
    | component => exact fun same => by cases same
  have other := printable.name_not_mem
  simp only [List.mem_cons, List.not_mem_nil, or_false, not_or] at other
  obtain ⟨noScript, noStyle, noTextarea⟩ := other
  unfold Markup.bodyOf
  rw [isRole]
  cases closes : role.selfClosing with
  | true => simp only [true_or, ↓reduceIte]
  | false =>
    rw [if_neg, if_neg, if_neg, if_neg Bool.false_ne_true]
    · simp only [hasTextContent, beq_iff_eq, noTextarea, not_false_eq_true]
    · simp only [hasRawContent, Bool.or_eq_true, beq_iff_eq, noScript, noStyle, or_self,
        not_false_eq_true]
    · rintro (isTrue | ⟨isPlain, isVoid⟩)
      · cases isTrue
      · rw [notVoid (closes ▸ isPlain)] at isVoid
        cases isVoid

end Role.Printable

/-- An element starts with its tag. -/
theorem Draft.run_of_tag {role : Role} {attributes : List Attribute} {inside : Text}
    (printable : role.Printable) (attrsPrintable : ∀ attr ∈ attributes, attr.Printable)
    (split : draft.cursor.rest = '<' :: (role.name.toList ++
      (printAttributes attributes ++ (tagEnd role.selfClosing ++ inside))))
    (stays : closesSibling role.name draft.scopes = false) :
    ∃ cursor read, cursor.rest = inside ∧
      read.map Attribute.bare = attributes.map Attribute.bare ∧
      draft.run = ((draft.moveTo cursor).readBody
        ⟨draft.cursor.offset, role.name, read, role.selfClosing⟩).run := by
  have isCursor : draft.cursor = ⟨draft.cursor.offset, _⟩ := congrArg (Cursor.mk _) split
  obtain ⟨⟨noFaults, goesOn⟩, read, isTag, same⟩ := openTag_print printable.tagName attrsPrintable
    role.selfClosing inside draft.cursor.offset
  rw [← isCursor] at noFaults goesOn isTag
  have leads := printable.tagName.leadingName?
    (endsAttribute_print attrsPrintable role.selfClosing inside).1
  have begins := begins_of_leadingName? leads
  have opens : draft.cursor.token.kind = .tagOpen := (begins.read_at split).1
  have named : draft.cursor.tagName? = some role.name := by
    have tagName := tagName?_eq begins draft.cursor.offset
    rw [leads, Option.map_some, String.ofList_toList] at tagName
    rw [isCursor]
    exact tagName
  have starts : StartsConstruct draft.cursor.rest := by
    rw [split]
    exact startsConstruct_cons rfl _
  have ordinary : role.name ∉ ["script", "style"] := fun member => printable.name_not_mem
    (List.mem_append_left ["textarea"] member)
  have stepped := step_of_construct starts (.inr (.inl opens))
    fun _ => ⟨role.name, named, ordinary, stays⟩
  have known := unknownFaults_eq_nil_iff.mpr (show isUnknownSpecial (OpenTag.mk draft.cursor.offset
    role.name read role.selfClosing).name = false from printable.not_isUnknownSpecial)
  refine ⟨_, read, goesOn, same, ?_⟩
  rw [run_of_step stepped, readNode_eq, opens, readAs, readElement_eq isTag, noFaults, known,
    List.append_nil, note_nil]

/-- Without its spans, an element is the same wherever it stands. -/
theorem Node.bare_element {span : Span} {role : Role} {attributes : List Attribute}
    {children : List Node} : (Node.element span role attributes children).bare =
      .element (Span.empty 0) role (attributes.map Attribute.bare) (children.map Node.bare) :=
  Node.mapSpans_element _ _ _ _ _

/-- An element ends by its own closing tag. -/
theorem Draft.run_of_own (draft : Draft) {entry : OpenElement} {name : String}
    (tagName : TagName name) (isOpen : draft.opened = .element entry :: outer) (isName : entry.tag.name = name)
    (split : draft.cursor.rest = closingLead name ++ (['>'] ++ rest)) :
    ∃ cursor stop, cursor.rest = rest ∧
      draft.run = ((draft.moveTo cursor).leave outer (entry.node stop)).run := by
  subst isName
  have isCursor : draft.cursor = ⟨draft.cursor.offset, _⟩ := congrArg (Cursor.mk _) split
  obtain ⟨noFaults, goesOn⟩ := closingTag_print tagName rest draft.cursor.offset
  rw [← isCursor] at noFaults goesOn
  have begins : Begins .closingOpen [] ['<', '/'] (entry.tag.name.toList ++ (['>'] ++ rest)) :=
    ⟨nofun, fun c isHead => Option.some.inj isHead ▸ rfl, rfl⟩
  have opens : draft.cursor.token.kind = .closingOpen := (begins.read_at split).1
  have named : draft.cursor.tagName? = some entry.tag.name := by
    have stops : ∀ c ∈ (['>'] ++ rest).head?, isWordChar c = false :=
      fun c isHead => Option.some.inj isHead ▸ rfl
    have found := tagName?_eq begins draft.cursor.offset
    rw [tagName.leadingName? stops, Option.map_some, String.ofList_toList] at found
    rw [isCursor]
    exact found
  have starts : StartsConstruct draft.cursor.rest := by
    rw [split]
    exact startsConstruct_cons rfl _
  have closed : draft.closeElement entry outer =
      (draft.moveTo (closingTag draft.cursor entry.tag.name).next).leave outer
        (entry.node (closingTag draft.cursor entry.tag.name).next.offset) := by
    rw [closeElement_of_not_implied (not_implied_of_own isOpen opens named), noFaults, note_nil]
  have stepped := step_of_close starts isOpen (.inr (.inl opens))
  exact ⟨_, _, goesOn, (run_of_step stepped).trans (congrArg run closed)⟩

/-- **An element is read again if the nodes inside it are.** -/
theorem rereads_element {span : Span} {role : Role} {attributes : List Attribute}
    {children : List Node} (printable : role.Printable)
    (attrsPrintable : ∀ attr ∈ attributes, attr.Printable)
    (empty : role.selfClosing = true → children = []) (inside : NodesReread children)
    (stays : ∀ child ∈ children, ∀ name ∈ child.tagName?, closesSibling name [role.scope] = false) :
    (Node.element span role attributes children).Rereads := by
  intro draft rest split _ stays'
  have split' : draft.cursor.rest = '<' :: (role.name.toList ++ (printAttributes attributes ++
      (tagEnd role.selfClosing ++ (printNodes children ++ (role.printClosing ++ rest))))) := by
    rw [split, Node.print]
    simp only [List.cons_append, List.append_assoc]
  obtain ⟨cursor, read, goesOn, same, ran⟩ :=
    Draft.run_of_tag printable attrsPrintable split' (stays' role.name rfl)
  unfold Draft.readBody at ran
  by_cases closes : role.selfClosing = true
  · obtain rfl := empty closes
    simp only [printable.bodyOf, printable.ofName, if_pos closes] at ran
    refine Draft.yields_of_run ?_ ?_ ran
    · rw [goesOn, Role.printClosing, if_pos closes]
      rfl
    · rw [OpenElement.node, Node.bare_element, Node.bare_element, same]
      rfl
  · rw [Role.printClosing, if_neg closes] at goesOn
    simp only [printable.bodyOf, printable.ofName, if_neg closes] at ran
    let entry : OpenElement :=
      ⟨⟨draft.cursor.offset, role.name, read, role.selfClosing⟩, role, []⟩
    have scope : (Opened.element entry).scope = role.scope := by
      cases printable <;> rfl
    obtain ⟨cursor', found, isRest, sameInside, ranInside⟩ := inside.run_opened draft
      (.element entry) draft.opened goesOn (startsConstruct_cons rfl _) (scope.symm ▸ stays)
    let filled : Opened := (Opened.element entry).addAll found
    obtain ⟨cursor'', stop, isRest', ranClosing⟩ := Draft.run_of_own
      { draft with cursor := cursor', opened := filled :: draft.opened } printable.tagName rfl rfl
      (isRest.trans (List.append_assoc _ _ _))
    refine Draft.yields_of_run isRest' ?_ (ran.trans (ranInside.trans ranClosing))
    rw [OpenElement.node, Node.bare_element, Node.bare_element, same, List.append_nil,
      List.reverse_reverse, sameInside]

/-- The keyword of a block is plain code of letters. -/
theorem BlockKind.plain_keyword (kind : BlockKind) :
    kind.keyword.toList.all Expression.isPlainCode = true ∧
      kind.keyword.toList.all Char.isAlpha = true := by
  cases kind <;> exact ⟨by decide, by decide⟩

/-- The words `else if` in front of a condition are `else` in front of `if`. -/
theorem clause_else_if (code : Text) :
    clause "else if".toList code = clause "else".toList (clause "if".toList code) := by
  cases code with
  | nil => rfl
  | cons c code => rfl

/-- The code of a branch is told apart from the white space around it. -/
theorem trim_takes {code : Text} (takes : code = [] ∨ Expression.Printable code) :
    Text.trim code = code := by
  rcases takes with rfl | printable
  · rfl
  · exact printable.trimmed

/-- A condition behind `if` has no white space around it. -/
theorem trim_clause_if {code : Text} (takes : code = [] ∨ Expression.Printable code) :
    Text.trim (clause "if".toList code) = clause "if".toList code := by
  rcases takes with rfl | printable
  · rfl
  · have split : clause "if".toList code = ['i', 'f', ' '] ++ code := by
      rw [clause, if_neg fun none => printable.nonempty (List.isEmpty_iff.mp none)]
      rfl
    rw [split]
    exact printable.trim_append (List.cons_ne_nil _ _) fun c isHead => Option.some.inj isHead ▸ rfl

/-- The code of a branch has its brackets and quotes closed. -/
theorem BranchKind.Takes.balanced {kind : BranchKind} {code : String} (takes : kind.Takes code) :
    Expression.Balanced .code code.toList := by
  have either : code = "" ∨ Expression.Printable code.toList := by
    cases kind with
    | otherwise => exact .inl takes
    | otherwiseIf | kept | broken => exact takes
  rcases either with rfl | printable
  · exact .nil
  · exact printable.balanced

/-- The words with which a branch starts are told apart from the code behind them. -/
theorem branchHeader_print {braced : Braced} {kind : BranchKind} {code : String}
    (takes : kind.Takes code) (inner : braced.inner = clause kind.lead code.toList) :
    branchHeader braced = some (kind, code) := by
  have word (keyword : String) (letters : keyword.toList.all Char.isAlpha = true)
      (isInner : braced.inner = clause keyword.toList code.toList)
      (takes : code = "" ∨ Expression.Printable code.toList) :
      braced.withKeyword.1 = keyword ∧ braced.withKeyword.2.code = code := by
    have read := Braced.withKeyword_clause isInner letters
      (trim_takes (takes.imp_left (congrArg String.toList)))
    rwa [String.ofList_toList, String.ofList_toList] at read
  cases kind with
  | otherwise =>
    obtain rfl : code = "" := takes
    obtain ⟨isKeyword, isCode⟩ := word "else" (by decide) inner (.inl rfl)
    unfold branchHeader
    simp only [isKeyword, isCode]
    rfl
  | otherwiseIf =>
    have takes' := takes.imp_left (congrArg String.toList)
    obtain ⟨isKeyword, isCode⟩ := Braced.withKeyword_clause
      (inner.trans (clause_else_if code.toList)) (by decide) (trim_clause_if takes')
    unfold branchHeader
    simp only [isKeyword, isCode, String.toList_ofList, String.ofList_toList, ↓reduceIte]
    rcases takes with rfl | printable
    · rfl
    · have split : Text.dropLead? ['i', 'f'] (clause "if".toList code.toList) =
          some (' ' :: code.toList) := by
        rw [clause, if_neg fun none => printable.nonempty (List.isEmpty_iff.mp none)]
        rfl
      simp only [split, trim_space, printable.trimmed, String.ofList_toList]
      rfl
  | kept =>
    obtain ⟨isKeyword, isCode⟩ := word "then" (by decide) inner takes
    unfold branchHeader
    simp only [isKeyword, isCode]
    rfl
  | broken =>
    obtain ⟨isKeyword, isCode⟩ := word "catch" (by decide) inner takes
    unfold branchHeader
    simp only [isKeyword, isCode]
    rfl

/-- Blocks of the same kind, header and content are the same without their spans. -/
theorem Node.bare_block {span span' : Span} {kind : BlockKind} {header header' : Embedded}
    {body body' : Fragment Node} {branches branches' : List (Branch Node)}
    (sameHeader : header.code = header'.code)
    (sameBody : body.nodes.map Node.bare = body'.nodes.map Node.bare)
    (sameBranches : branches.map Branch.bare = branches'.map Branch.bare) :
    (Node.block span kind header body branches).bare =
      (Node.block span' kind header' body' branches').bare := by
  unfold Node.bare at *
  rw [Node.mapSpans_block, Node.mapSpans_block, Embedded.mapSpans, Embedded.mapSpans, sameHeader,
    Fragment.mapSpans, Fragment.mapSpans]
  exact congrArg₂ (fun nodes branches => Node.block _ kind _ ⟨nodes, Span.empty 0⟩ branches)
    sameBody sameBranches

/-- Branches of the same kind, code and content are the same without their spans. -/
theorem Branch.bare_eq {span span' bodySpan bodySpan' : Span} {kind : BranchKind} {code : String}
    {nodes nodes' : List Node} (same : nodes.map Node.bare = nodes'.map Node.bare) :
    (Branch.mk span kind code ⟨nodes, bodySpan⟩).bare =
      (Branch.mk span' kind code ⟨nodes', bodySpan'⟩).bare :=
  congrArg (fun nodes => Branch.mk (Span.empty 0) kind code ⟨nodes, Span.empty 0⟩) same

/-- What has been read of a block does not depend on where its last part ends. -/
theorem OpenBlock.bare_parts (entry : OpenBlock) (stop stop' : Nat) :
    (entry.parts stop).1.nodes.map Node.bare = (entry.parts stop').1.nodes.map Node.bare ∧
      (entry.parts stop).2.map Branch.bare = (entry.parts stop').2.map Branch.bare := by
  obtain ⟨kind, header, part, start, nodes⟩ := entry
  cases part with
  | body => exact ⟨rfl, rfl⟩
  | later body branches branch => cases branch <;> exact ⟨rfl, rfl⟩

/-- A block as a node has its parts in source order. -/
theorem OpenBlock.node_eq (entry : OpenBlock) (partStop stop : Nat) : entry.node partStop stop =
    .block ⟨entry.header.span.start, stop⟩ entry.kind entry.header (entry.parts partStop).1
      (entry.parts partStop).2.reverse := rfl

/-- The block when a branch starts in front of which the part before it ends. -/
def OpenBlock.goOn (entry : OpenBlock) (stop : Nat) (branch : BranchStart) (start : Nat) :
    OpenBlock :=
  { entry with
    part := .later (entry.parts stop).1 (entry.parts stop).2 (some branch), start, nodes := [] }

/-- A block ends by its own ending tag. -/
theorem Draft.run_of_end (draft : Draft) {entry : OpenBlock}
    (isOpen : draft.opened = .block entry :: outer)
    (split : draft.cursor.rest = braces ('/' :: entry.kind.keyword.toList) ++ rest) :
    ∃ cursor partStop stop, cursor.rest = rest ∧
      draft.run = ((draft.moveTo cursor).leave outer (entry.node partStop stop)).run := by
  have balanced : Expression.Balanced .code entry.kind.keyword.toList := by
    rw [← List.append_nil entry.kind.keyword.toList]
    exact Expression.Balanced.nil.append_plain entry.kind.plain_keyword.1
  obtain ⟨starts, opens, braced, found, isCode, isRest⟩ :=
    exists_braced_sign (fun _ => rfl) balanced split
  have trimmed : Text.trim entry.kind.keyword.toList = entry.kind.keyword.toList := by
    cases entry.kind <;> rfl
  have named : String.ofList (Text.trim braced.inner) = entry.kind.keyword := by
    rw [isCode, trimmed, String.ofList_toList]
  refine ⟨braced.next, draft.cursor.offset, braced.next.offset, isRest, ?_⟩
  rw [run_of_step (step_of_end starts isOpen opens), endBlock_of_end found named]

/-- A branch that the block takes goes on with the block. -/
theorem Draft.run_of_branch (draft : Draft) {entry : OpenBlock} {kind : BranchKind} {code : String}
    (isOpen : draft.opened = .block entry :: outer) (accepts : entry.kind.accepts kind = true)
    (takes : kind.Takes code)
    (split : draft.cursor.rest = braces (':' :: clause kind.lead code.toList) ++ rest) :
    ∃ cursor start, cursor.rest = rest ∧ draft.run = Draft.run { draft with
      cursor
      opened := .block (entry.goOn draft.cursor.offset ⟨start, kind, code⟩ cursor.offset) ::
        outer } := by
  have plain : kind.lead.all Expression.isPlainCode = true := by cases kind <;> decide
  obtain ⟨starts, opens, braced, found, isCode, isRest⟩ :=
    exists_braced_sign (fun _ => rfl) (takes.balanced.clause plain) split
  have isBranch : (branchHeader braced).filter (entry.kind.accepts ·.1) = some (kind, code) := by
    rw [branchHeader_print takes isCode, Option.filter_some, if_pos accepts]
  refine ⟨braced.next, braced.span.start, isRest, ?_⟩
  rw [run_of_step (step_of_continue starts isOpen opens), continueBlock_of_branch found isBranch]
  rfl

/-- What is printed of branches, and the end of the block behind them, starts with a construct. -/
theorem startsConstruct_branches (branches : List (Branch Node)) (keyword rest : Text) :
    StartsConstruct (printBranches branches ++ (braces ('/' :: keyword) ++ rest)) := by
  cases branches <;> exact startsConstruct_cons rfl _

/-- A branch that can be read again in a block of the kind. -/
structure Branch.Rereads (kind : BlockKind) (branch : Branch Node) : Prop where
  accepts : kind.accepts branch.kind = true
  takes : branch.kind.Takes branch.code
  inside : NodesReread branch.body.nodes

/-- **The branches of a block are read again**, and the block ends behind them. -/
theorem Draft.run_of_branches {branches : List (Branch Node)} (draft : Draft) {entry : OpenBlock}
    (each : ∀ branch ∈ branches, branch.Rereads entry.kind)
    (isOpen : draft.opened = .block entry :: outer)
    (split : draft.cursor.rest =
      printBranches branches ++ (braces ('/' :: entry.kind.keyword.toList) ++ rest)) :
    ∃ cursor node, cursor.rest = rest ∧
      draft.run = ((draft.moveTo cursor).leave outer node).run ∧
      node.bare = (Node.block (Span.empty 0) entry.kind entry.header (entry.parts 0).1
        ((entry.parts 0).2.reverse ++ branches)).bare := by
  induction branches generalizing draft entry with
  | nil =>
    obtain ⟨cursor, partStop, stop, isRest, ran⟩ := draft.run_of_end isOpen split
    refine ⟨cursor, entry.node partStop stop, isRest, ran, ?_⟩
    obtain ⟨sameBody, sameBranches⟩ := entry.bare_parts partStop 0
    rw [OpenBlock.node_eq]
    refine Node.bare_block rfl sameBody ?_
    rw [List.append_nil, List.map_reverse, List.map_reverse, sameBranches]
  | cons branch others ih =>
    obtain ⟨accepts, takes, inside⟩ := each branch List.mem_cons_self
    obtain ⟨span, kind, code, ⟨nodes, bodySpan⟩⟩ := branch
    have starts := startsConstruct_branches others entry.kind.keyword.toList rest
    rw [printBranches, List.append_assoc, List.append_assoc] at split
    obtain ⟨cursor, start, goesOn, ran⟩ := draft.run_of_branch isOpen accepts takes split
    obtain ⟨cursor', found, isRest, same, ranInside⟩ := inside.run_opened draft (.block
      (entry.goOn draft.cursor.offset ⟨start, kind, code⟩ cursor.offset)) outer goesOn starts
      fun _ _ _ _ => rfl
    let next : OpenBlock :=
      { entry.goOn draft.cursor.offset ⟨start, kind, code⟩ cursor.offset with
        nodes := found.reverse ++ [] }
    have others' : ∀ branch ∈ others, branch.Rereads next.kind :=
      fun branch member => each branch (List.mem_cons_of_mem _ member)
    obtain ⟨cursor'', node, isRest', ranOthers, sameNode⟩ :=
      ih { draft with cursor := cursor', opened := .block next :: outer } others' rfl isRest
    refine ⟨cursor'', node, isRest', ran.trans (ranInside.trans ranOthers), sameNode.trans ?_⟩
    obtain ⟨sameBody, sameBranches⟩ := entry.bare_parts draft.cursor.offset 0
    refine Node.bare_block rfl sameBody ?_
    have parts : (next.parts 0).2 = ⟨⟨start, 0⟩, kind, code, ⟨(found.reverse ++ []).reverse,
        ⟨cursor.offset, 0⟩⟩⟩ :: (entry.parts draft.cursor.offset).2 := rfl
    have sameInside : (found.reverse ++ []).reverse.map Node.bare = nodes.map Node.bare := by
      rw [List.append_nil, List.reverse_reverse]
      exact same
    rw [parts, List.reverse_cons, List.append_assoc, List.singleton_append, List.map_append,
      List.map_append, List.map_reverse, List.map_reverse, sameBranches, List.map_cons,
      List.map_cons, Branch.bare_eq sameInside]

/-- **A block is read again if the nodes inside it are.** -/
theorem rereads_block {span : Span} {kind : BlockKind} {header : Embedded} {body : Fragment Node}
    {branches : List (Branch Node)} (printable : Expression.Printable header.code.toList)
    (inside : NodesReread body.nodes) (each : ∀ branch ∈ branches, branch.Rereads kind) :
    (Node.block span kind header body branches).Rereads := by
  intro draft rest split _ _
  obtain ⟨nodes, bodySpan⟩ := body
  have split' : draft.cursor.rest = braces ('#' :: clause kind.keyword.toList header.code.toList) ++
      (printNodes nodes ++ (printBranches branches ++
        (braces ('/' :: kind.keyword.toList) ++ rest))) := by
    rw [split, Node.print]
    simp only [List.append_assoc]
  obtain ⟨plain, letters⟩ := kind.plain_keyword
  obtain ⟨starts, opens, braced, found, isCode, goesOn⟩ :=
    exists_braced_sign (fun _ => rfl) (printable.balanced.clause plain) split'
  obtain ⟨isKeyword, isHeader⟩ := Braced.withKeyword_clause isCode letters printable.trimmed
  rw [String.ofList_toList] at isKeyword isHeader
  have isKind : BlockKind.ofKeyword? kind.keyword = some kind :=
    BlockKind.ofKeyword?_eq_some_iff.mpr rfl
  let entry : OpenBlock := ⟨kind, braced.withKeyword.2, .body, braced.next.offset, []⟩
  have read : Draft.readAs .blockOpen draft = (draft.moveTo braced.next).enter (.block entry) := by
    simp only [Draft.readAs, Draft.readBlock, Draft.readBraced, found, isKeyword, isKind]
    rfl
  have ran := Draft.run_of_construct starts opens (by decide) read
  have startsInside := startsConstruct_branches branches kind.keyword.toList rest
  obtain ⟨cursor, children, isRest, same, ranInside⟩ := inside.run_opened draft (.block entry)
    draft.opened goesOn startsInside fun _ _ _ _ => rfl
  let next : OpenBlock := { entry with nodes := children.reverse ++ [] }
  obtain ⟨cursor', node, isRest', ranBranches, sameNode⟩ := Draft.run_of_branches
    { draft with cursor, opened := .block next :: draft.opened } each rfl isRest
  refine Draft.yields_of_run isRest' (sameNode.trans ?_) (ran.trans (ranInside.trans ranBranches))
  refine Node.bare_block isHeader ?_ rfl
  have parts : (next.parts 0).1.nodes = (children.reverse ++ []).reverse := rfl
  rw [parts, List.append_nil, List.reverse_reverse]
  exact same

/-- **Every printable node is read again.** -/
theorem Node.Printable.rereads (printable : node.Printable) : node.Rereads := by
  induction printable with
  | text nonempty plain => exact rereads_text nonempty plain
  | comment noEnd => exact rereads_comment noEnd
  | expression printable => exact rereads_expression printable
  | element role attributes empty apart stays _ ih =>
    exact rereads_element role attributes empty (nodesReread ih apart) stays
  | block header apart branches _ _ ih ihBranches =>
    refine rereads_block header (nodesReread ih apart) fun branch member => ?_
    obtain ⟨accepts, takes, apart⟩ := branches branch member
    exact ⟨accepts, takes, nodesReread (ihBranches branch member) apart⟩

/-- **A printed tree is read again.** What is printed of printable nodes, no two of which are text
next to each other, is read without faults as a document with these nodes and nothing else. -/
theorem read?_print (printable : ∀ node ∈ nodes, node.Printable) (apart : TextsApart nodes) :
    ∃ found, read? (printNodes nodes) =
      .ok ⟨none, none, none, ⟨found, ⟨0, Text.bytes (printNodes nodes)⟩⟩⟩ ∧
        found.map Node.bare = nodes.map Node.bare := by
  have reread := nodesReread (fun node member => (printable node member).rereads) apart
  obtain ⟨cursor, found, ends, same, ran⟩ := reread (Draft.start (printNodes nodes)) []
    (List.append_nil _).symm startsConstruct_nil fun _ _ _ _ => rfl
  rw [Draft.addAll_top rfl] at ran
  obtain ⟨offset, input⟩ := cursor
  obtain rfl : input = [] := ends
  have ended : Draft.step ⟨⟨offset, []⟩, [], found.reverse ++ [], none, none, none, []⟩ = none :=
    Draft.step_of_ended startsConstruct_nil rfl rfl
  have ran' : (Draft.start (printNodes nodes)).run =
      ⟨⟨offset, []⟩, [], found.reverse ++ [], none, none, none, []⟩ :=
    ran.trans (Draft.run_of_step_eq_none ended)
  refine ⟨found, ?_, same⟩
  unfold read? read
  simp only [ran', Draft.document, List.append_nil, List.reverse_reverse, List.reverse_nil]

/-- A greeting with a form in it, shown to those who are known. -/
def greeting : List Node :=
  let nowhere := Span.empty 0
  [.text nowhere "Hi ",
    .block nowhere .conditional ⟨nowhere, nowhere, "known"⟩
      ⟨[.expression ⟨nowhere, nowhere, "say('\x7d')"⟩], nowhere⟩
      [⟨nowhere, .otherwiseIf, "x", ⟨[.comment nowhere " - "], nowhere⟩⟩,
        ⟨nowhere, .otherwise, "", ⟨[], nowhere⟩⟩],
    .element nowhere (.element "form" false)
      [.named nowhere "class" (.text ⟨nowhere, "a b"⟩), .named nowhere "open" .absent,
        .named nowhere "on:submit" (.expression ⟨nowhere, nowhere, "f"⟩), .spread nowhere "r"]
      [.element nowhere (.component "Ui.Field" true) [] []]]

/-- The greeting may be printed. -/
theorem printable_greeting : ∀ node ∈ greeting, node.Printable := by
  have call : Expression.Printable "say('\x7d')".toList := by
    refine ⟨by decide, by decide, fun c isHead => Option.some.inj isHead ▸ by decide, ?_⟩
    have string : Expression.Balanced .code ['\'', '\x7d', '\''] :=
      .string (.inr rfl) (.char (by decide) (by decide) .nil) .nil
    have brackets : Expression.Balanced .code ['(', '\'', '\x7d', '\'', ')'] :=
      .brackets List.mem_cons_self string .nil
    exact brackets.append_plain (show ['s', 'a', 'y'].all Expression.isPlainCode = true by decide)
  intro node member
  simp only [greeting, List.mem_cons, List.not_mem_nil, or_false] at member
  rcases member with rfl | rfl | rfl
  · exact .text (by decide)
      (List.all_eq_true.mp (show "Hi ".toList.all isTextChar = true by decide))
  · refine .block (.of_isName (by decide)) (.singleton _) ?_ ?_ ?_
    · intro branch isBranch
      simp only [List.mem_cons, List.not_mem_nil, or_false] at isBranch
      rcases isBranch with rfl | rfl
      · exact ⟨rfl, .inr (.of_isName (by decide)), .singleton _⟩
      · exact ⟨rfl, rfl, .nil⟩
    · intro node isInside
      rw [List.mem_singleton.mp isInside]
      exact .expression call
    · intro branch isBranch node isInside
      simp only [List.mem_cons, List.not_mem_nil, or_false] at isBranch
      rcases isBranch with rfl | rfl
      · rw [List.mem_singleton.mp isInside]
        exact .comment (by decide)
      · cases isInside
  · refine .element (.element ⟨by decide, by decide⟩ (by decide) (by decide) (by decide)) ?_ nofun
      (.singleton _) ?_ ?_
    · intro attr isAttr
      simp only [List.mem_cons, List.not_mem_nil, or_false] at isAttr
      rcases isAttr with rfl | rfl | rfl | rfl
      · exact .named (isWord_of_isName (by decide)) (.text (List.all_eq_true.mp
          (show "a b".toList.all (isLiteralChar '"') = true by decide)))
      · exact .named (isWord_of_isName (by decide)) .absent
      · exact .named (isWord_of_isName (by decide)) (.expression (.of_isName (by decide)))
      · exact .spread (.of_isName (by decide))
    · intro child isChild name isName
      obtain rfl := List.mem_singleton.mp isChild
      obtain rfl := Option.some.inj isName
      decide
    · intro child isChild
      rw [List.mem_singleton.mp isChild]
      exact .element (.component ⟨by decide, by decide⟩ (by decide)) nofun (fun _ => rfl) .nil
        nofun nofun

/-- What is printed of the greeting is read again as the greeting. -/
theorem read?_print_greeting : String.ofList (printNodes greeting) =
      "Hi \x7b#if known\x7d\x7bsay('\x7d')\x7d\x7b:else if x\x7d<!-- - -->" ++
        "\x7b:else\x7d\x7b/if\x7d" ++ "<form class=\"a b\" open on:submit=\x7bf\x7d \x7b...r\x7d><Ui.Field/></form>" ∧
    (∀ node ∈ greeting, node.Printable) ∧ TextsApart greeting ∧
    ∃ found, read? (printNodes greeting) =
      .ok ⟨none, none, none, ⟨found, ⟨0, Text.bytes (printNodes greeting)⟩⟩⟩ ∧
        found.map Node.bare = greeting.map Node.bare := by
  have apart : TextsApart greeting := .cons_cons (.inr rfl) (.cons_cons (.inl rfl) (.singleton _))
  exact ⟨by decide, printable_greeting, apart, read?_print printable_greeting apart⟩

end ClassHoist.Markup
