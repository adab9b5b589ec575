import ClassHoist.Proofs.ReachedPlaces
import ClassHoist.Usage

/-! # Where the classes of components stand

The classes handed to a component are the literal text with which the value of an attribute of its
tag starts. That text stands in the source where it was read, whether the value is quoted or not
(`openTag_holds_usage`). The classes in a tree of nodes are those in the tags of its elements, in
source order, so that reading needs to follow tags only (`nodesUsages_element`).
-/

namespace ClassHoist.Markup

/-- The literal text with which the value of an attribute starts. -/
def Attribute.literal? : Attribute → Option Literal
  | .named _ _ value => value.leadingText?
  | _ => none

/-- A value that starts with literal text is empty, or that text is its first part. -/
theorem leadingText?_ofParts {offset : Nat} {parts : List ValuePart} {literal : Literal}
    (leads : (Value.ofParts offset parts).leadingText? = some literal) :
    (parts = [] ∧ literal = ⟨Span.empty offset, ""⟩) ∨ parts.head? = some (.text literal) := by
  unfold Value.ofParts at leads
  split at leads
  case h_1 =>
    refine .inl ⟨rfl, ?_⟩
    simpa [Value.leadingText?] using leads.symm
  case h_2 only => exact .inr (by simpa [Value.leadingText?] using leads)
  case h_3 =>
    refine .inr ?_
    unfold Value.leadingText? at leads
    split at leads
    case h_1 same => cases same
    case h_2 same =>
      obtain rfl := Value.mixed.inj same
      simpa using leads
    case h_3 => cases leads

/-- A quoted value starts with its literal text if there is any, and with an expression
otherwise. -/
theorem quotedParts_eq_ok {quote : Char} {offset : Nat} {input : Text} {parts : List ValuePart}
    {next : Cursor} (done : quotedParts quote offset input = .ok (parts, next)) :
    ∃ others, parts = literalPart offset (input.takeWhile (isLiteralChar quote)) ++ others ∧
      (∀ literal, others.head? ≠ some (.text literal)) ∧
      Cursor.Reaches ⟨offset + Text.bytes (input.takeWhile (isLiteralChar quote)),
        input.dropWhile (isLiteralChar quote)⟩ next := by
  rw [quotedParts] at done
  split at done
  case h_1 => cases done
  case h_2 c rest left =>
    split at done
    case isTrue closes =>
      simp only [Except.ok.injEq, Prod.mk.injEq] at done
      obtain ⟨rfl, rfl⟩ := done
      refine ⟨[], (List.append_nil _).symm, by simp, [quote], ?_, ?_⟩
      · rw [left, closes]
        rfl
      · simp only [Text.bytes_cons, Text.bytes_nil, Nat.add_zero]
    case isFalse other =>
      split at done
      case h_1 => cases done
      case h_2 inner after closed =>
        simp only at done
        split at done
        case h_1 => cases done
        case h_2 more next' same =>
          simp only [Except.ok.injEq, Prod.mk.injEq] at done
          obtain ⟨rfl, rfl⟩ := done
          refine ⟨_, rfl, by simp, ?_⟩
          refine Cursor.Reaches.trans ⟨c :: inner ++ ['\x7d'], ?_, ?_⟩ (quotedParts_reaches same)
          · simp only [left, List.append_assoc, List.cons_append, List.nil_append]
            rw [Expression.closing?_eq_some closed]
          · obtain rfl := eq_brace_of_dropWhile left other
            have one : Char.utf8Size '\x7b' = 1 := rfl
            have last : Char.utf8Size '\x7d' = 1 := rfl
            simp only [Text.bytes_append, Text.bytes_cons, Text.bytes_nil, one, last]
            omega

/-- The literal text at the start of a quoted value stands where its parts were read. -/
theorem quotedParts_holds {quote : Char} {offset : Nat} {input : Text} {parts : List ValuePart}
    {next : Cursor} {literal : Literal}
    (done : quotedParts quote offset input = .ok (parts, next))
    (leads : (Value.ofParts offset parts).leadingText? = some literal) :
    Cursor.Holds ⟨offset, input⟩ next literal.span literal.raw.toList := by
  rcases leadingText?_ofParts leads with ⟨-, rfl⟩ | first
  · obtain ⟨taken, joined, counted⟩ := quotedParts_reaches done
    exact ⟨[], taken, joined, rfl, rfl, counted⟩
  · obtain ⟨others, rfl, none, taken, joined, counted⟩ := quotedParts_eq_ok done
    unfold literalPart at first
    split at first
    case isTrue => exact absurd first (none literal)
    case isFalse =>
      simp only [List.cons_append, List.head?_cons, Option.some.injEq, ValuePart.text.injEq]
        at first
      subst first
      refine ⟨[], taken, ?_, rfl, ?_, counted⟩
      · simp only [List.nil_append, String.toList_ofList]
        rw [← joined, List.takeWhile_append_dropWhile]
      · simp only [String.toList_ofList]

/-- The literal text at the start of a value in quotes stands inside them. -/
theorem quotedValue_holds {cursor : Cursor} {value : Value} {literal : Literal}
    (read : (quotedValue cursor).value = some value)
    (leads : value.leadingText? = some literal) :
    cursor.Holds (quotedValue cursor).next literal.span literal.raw.toList := by
  unfold quotedValue at read ⊢
  simp only at read ⊢
  split at read
  case h_1 parts next done =>
    obtain rfl := Option.some.inj read
    exact (quotedParts_holds done leads).widen (Cursor.reaches_bump cursor)
      (Cursor.Reaches.refl next)
  case h_2 => cases read

/-- An unquoted value stands where it was read. -/
theorem unquoted_holds (cursor : Cursor) {run after : Text}
    (same : unquotedRun (cursor.rest.dropWhile Text.isSeparator) = (run, after)) :
    cursor.Holds (afterUnquoted run after (cursor.token.span.start + Text.bytes run))
      ⟨cursor.token.span.start, cursor.token.span.start + Text.bytes run⟩ run := by
  obtain ⟨taken, joined, counted⟩ :=
    afterUnquoted_reaches run after (cursor.token.span.start + Text.bytes run)
  refine ⟨cursor.rest.takeWhile Text.isSeparator, taken, ?_, Cursor.token_start cursor, rfl,
    counted⟩
  have whole := rest_eq_unquotedRun cursor
  rw [same] at whole
  rw [← joined]
  exact whole

/-- The literal text with which the value of an attribute starts stands where it was read. -/
theorem namedAttribute_holds {cursor : Cursor} {entry : Attribute} {literal : Literal}
    (read : (namedAttribute cursor).value = some entry)
    (leads : entry.literal? = some literal) :
    cursor.Holds (namedAttribute cursor).next literal.span literal.raw.toList := by
  have reach := (Cursor.reaches_bump cursor).trans (Cursor.reaches_bump cursor.bump)
  unfold namedAttribute at read ⊢
  simp only at read ⊢
  split at read
  case isFalse other =>
    obtain rfl := Option.some.inj read
    cases leads
  case isTrue assigned =>
    simp only [assigned, ↓reduceIte]
    split at read
    case h_1 | h_2 =>
      obtain ⟨value, inner, rfl⟩ := Option.map_eq_some_iff.mp read
      exact (quotedValue_holds inner leads).widen reach (Cursor.Reaches.refl _)
    case h_3 =>
      split at read
      · cases read
      · obtain rfl := Option.some.inj read
        cases leads
    case h_4 | h_5 =>
      obtain rfl := Option.some.inj read
      obtain rfl := Option.some.inj leads
      simp only [String.toList_ofList]
      exact (unquoted_holds _ rfl).widen reach (Cursor.Reaches.refl _)
    case h_6 => cases read

/-- The literal text of an attribute stands where the attribute was read. -/
theorem attribute?_holds {cursor : Cursor} {reading : Reading (Option Attribute)}
    {entry : Attribute} {literal : Literal} (found : attribute? cursor = some reading)
    (read : reading.value = some entry) (leads : entry.literal? = some literal) :
    cursor.Holds reading.next literal.span literal.raw.toList := by
  unfold attribute? at found
  split at found
  case h_1 | h_2 | h_3 => cases found
  case h_4 | h_5 =>
    obtain rfl := Option.some.inj found
    exact namedAttribute_holds read leads
  case h_6 =>
    obtain rfl := Option.some.inj found
    unfold bracedAttribute at read
    split at read
    · cases read
    · obtain rfl := Option.some.inj read
      split at leads <;> cases leads
  case h_7 =>
    obtain rfl := Option.some.inj found
    unfold attachAttribute at read
    split at read
    · cases read
    · simp only at read
      split at read
      · obtain rfl := Option.some.inj read
        cases leads
      · cases read
  case h_8 =>
    obtain rfl := Option.some.inj found
    cases read

/-- The literal text of one of the attributes stands where they were read. -/
theorem attributes_holds {cursor : Cursor} {entry : Attribute} {literal : Literal}
    (member : entry ∈ (attributes cursor).value) (leads : entry.literal? = some literal) :
    cursor.Holds (attributes cursor).next literal.span literal.raw.toList := by
  fun_induction attributes cursor with
  | case1 cursor => cases member
  | case2 cursor reading found less more ih =>
    rcases List.mem_append.mp member with here | later
    · exact (attribute?_holds found (Option.mem_toList.mp here) leads).widen
        (Cursor.Reaches.refl _) (attributes_reaches _)
    · exact (ih later).widen (attribute?_reaches found) (Cursor.Reaches.refl _)

/-- The literal text of an attribute of a tag stands in the tag. -/
theorem openTag_holds {cursor : Cursor} {tag : OpenTag} {entry : Attribute}
    {literal : Literal} (read : (openTag cursor).value = some tag)
    (member : entry ∈ tag.attributes) (leads : entry.literal? = some literal) :
    cursor.Holds (openTag cursor).next literal.span literal.raw.toList := by
  have reach := (Cursor.reaches_bump cursor).trans (Cursor.reaches_bump cursor.bump)
  unfold openTag at read ⊢
  simp only at read ⊢
  split at read
  · cases read
  · split at read
    case isTrue closes =>
      obtain rfl := Option.some.inj read
      simp only [closes, ↓reduceIte]
      exact (attributes_holds member leads).widen reach (Cursor.reaches_bump _)
    case isFalse opens =>
      obtain rfl := Option.some.inj read
      simp only [opens, ↓reduceIte]
      exact (attributes_holds member leads).widen reach (Cursor.reaches_expect _ _)

/-- The classes handed to components in nodes and inside them. -/
def nodesUsages (nodes : List Node) : List Usage :=
  (nodesPreorder nodes).filterMap Usage.ofNode?

/-- The classes handed to components in branches. -/
def branchesUsages (branches : List (Branch Node)) : List Usage :=
  (branchesPreorder branches).filterMap Usage.ofNode?

/-- The classes that the tag of an element hands to a component. -/
def tagUsage? (role : Role) (attributes : List Attribute) : Option Usage :=
  if role.isComponent then Usage.ofAttributes? attributes else none

@[simp] theorem nodesUsages_nil : nodesUsages [] = [] := rfl

/-- The usages of nodes are those of the first one, then those of the others. -/
theorem nodesUsages_cons (node : Node) (rest : List Node) :
    nodesUsages (node :: rest) = nodesUsages [node] ++ nodesUsages rest := by
  simp only [nodesUsages, nodesPreorder, List.append_nil, List.filterMap_append]

/-- The usages of nodes in two lists are those of the first list, then those of the second. -/
theorem nodesUsages_append (first second : List Node) :
    nodesUsages (first ++ second) = nodesUsages first ++ nodesUsages second := by
  induction first with
  | nil => rfl
  | cons node rest ih =>
    rw [List.cons_append, nodesUsages_cons, ih, nodesUsages_cons node rest, List.append_assoc]

/-- The usages of branches in two lists are those of the first list, then those of the second. -/
theorem branchesUsages_append (first second : List (Branch Node)) :
    branchesUsages (first ++ second) = branchesUsages first ++ branchesUsages second := by
  induction first with
  | nil => rfl
  | cons branch rest ih =>
    obtain ⟨span, kind, code, ⟨nodes, bodySpan⟩⟩ := branch
    simp only [branchesUsages, List.cons_append, branchesPreorder, List.filterMap_append] at ih ⊢
    rw [ih, List.append_assoc]

/-- The usages of an element are the one in its tag, if there is one, and those of its children. -/
theorem nodesUsages_element (span : Span) (role : Role) (attributes : List Attribute)
    (children : List Node) :
    nodesUsages [.element span role attributes children] =
      (tagUsage? role attributes).toList ++ nodesUsages children := by
  simp only [nodesUsages, nodesPreorder, Node.preorder, List.append_nil]
  rw [List.filterMap_cons, Usage.ofNode?]
  unfold tagUsage?
  cases (if role.isComponent then Usage.ofAttributes? attributes else none) <;> rfl

/-- The usages of a block are those of its body and of its branches. -/
theorem nodesUsages_block (span : Span) (kind : BlockKind) (header : Embedded)
    (body : Fragment Node) (branches : List (Branch Node)) :
    nodesUsages [.block span kind header body branches] =
      nodesUsages body.nodes ++ branchesUsages branches := by
  obtain ⟨nodes, bodySpan⟩ := body
  simp only [nodesUsages, branchesUsages, nodesPreorder, Node.preorder, List.append_nil]
  rw [List.filterMap_cons, List.filterMap_append]
  rfl

/-- The nodes of the parts of a block that come before the one being read. -/
def BlockPart.usages : BlockPart → List Usage
  | .body => []
  | .later main branches _ => nodesUsages main.nodes ++ branchesUsages branches.reverse

/-- The classes handed to components so far inside an open element or block and in its tag. -/
def Opened.usages : Opened → List Usage
  | .element entry =>
    (tagUsage? entry.role entry.tag.attributes).toList ++ nodesUsages entry.children.reverse
  | .block entry => entry.part.usages ++ nodesUsages entry.nodes.reverse

/-- The nodes of the part being read will be dropped. -/
def Opened.drops : Opened → Prop
  | .block ⟨_, _, .later _ _ none, _, _⟩ => True
  | _ => False

/-- A node added to what is open adds its usages. -/
theorem Opened.usages_add (node : Node) (opened : Opened) :
    (opened.add node).usages = opened.usages ++ nodesUsages [node] := by
  cases opened with
  | element entry =>
    simp only [Opened.add, Opened.usages, List.reverse_cons, nodesUsages_append,
      List.append_assoc]
  | block entry =>
    simp only [Opened.add, Opened.usages, List.reverse_cons, nodesUsages_append,
      List.append_assoc]

/-- Adding a node does not change whether nodes will be dropped. -/
theorem Opened.drops_add (node : Node) (opened : Opened) :
    (opened.add node).drops ↔ opened.drops := by
  cases opened with
  | element entry => rfl
  | block entry =>
    obtain ⟨kind, header, part, start, nodes⟩ := entry
    cases part with
    | body => rfl
    | later body branches branch => cases branch <;> rfl

/-- Closing an element keeps its usages. -/
theorem OpenElement.usages_node (entry : OpenElement) (stop : Nat) :
    nodesUsages [entry.node stop] = (Opened.element entry).usages := by
  rw [OpenElement.node, nodesUsages_element, Opened.usages]

/-- Ending a block keeps its usages, unless its last nodes are dropped. -/
theorem OpenBlock.usages_node (entry : OpenBlock) (partStop stop : Nat)
    (kept : ¬ (Opened.block entry).drops) :
    nodesUsages [entry.node partStop stop] = (Opened.block entry).usages := by
  obtain ⟨kind, header, part, start, nodes⟩ := entry
  unfold OpenBlock.node OpenBlock.parts
  cases part with
  | body =>
    rw [nodesUsages_block]
    simp only [Opened.usages, BlockPart.usages, List.reverse_nil, List.nil_append]
    exact List.append_nil _
  | later body branches branch =>
    cases branch with
    | none => exact absurd trivial kept
    | some branch =>
      simp only [nodesUsages_block, Opened.usages, BlockPart.usages, List.reverse_cons,
        branchesUsages_append, List.append_assoc]
      simp only [branchesUsages, branchesPreorder, List.append_nil]
      rfl

/-- The classes are the literal text that the first attribute named class starts with. -/
theorem ofAttributes?_eq_some_iff {attributes : List Attribute} {usage : Usage} :
    Usage.ofAttributes? attributes = some usage ↔ ∃ before entry after value literal,
      attributes = before ++ .named entry "class" value :: after ∧
        (∀ other ∈ before, other.name? ≠ some "class") ∧ value.leadingText? = some literal ∧
          literal.raw ≠ "" ∧ usage = ⟨literal.raw.toList, literal.span⟩ := by
  constructor
  · intro found
    unfold Usage.ofAttributes? at found
    split at found
    case h_2 => cases found
    case h_1 span name value first =>
      obtain ⟨literal, filtered, rfl⟩ := Option.map_eq_some_iff.mp found
      obtain ⟨leads, nonempty⟩ := Option.filter_eq_some_iff.mp filtered
      obtain ⟨isClass, before, after, whole, others⟩ := List.find?_eq_some_iff_append.mp first
      have named : some name = some "class" := beq_iff_eq.mp isClass
      obtain rfl := Option.some.inj named
      refine ⟨before, span, after, value, literal, whole, fun other member isNamed => ?_, leads,
        fun empty => ?_, rfl⟩
      · simpa [isNamed] using others other member
      · simp [empty] at nonempty
  · rintro ⟨before, entry, after, value, literal, rfl, others, leads, nonempty, rfl⟩
    have first : (before ++ .named entry "class" value :: after).find? (·.name? == some "class") =
        some (.named entry "class" value) := by
      refine List.find?_eq_some_iff_append.mpr ⟨beq_self_eq_true _, before, after, rfl, ?_⟩
      intro other member
      simpa using others other member
    have kept : value.leadingText?.filter (!·.raw.isEmpty) = some literal :=
      Option.filter_eq_some_iff.mpr ⟨leads, by simpa using nonempty⟩
    unfold Usage.ofAttributes?
    simp only [first, kept, Option.map_some]

/-- The classes that a tag hands to a component are the literal text of one of its attributes. -/
theorem exists_literal_of_tagUsage? {role : Role} {attributes : List Attribute} {usage : Usage}
    (found : tagUsage? role attributes = some usage) :
    usage.group ≠ [] ∧ ∃ entry ∈ attributes, ∃ literal, entry.literal? = some literal ∧
      usage.span = literal.span ∧ usage.group = literal.raw.toList := by
  unfold tagUsage? at found
  split at found
  case isFalse => cases found
  case isTrue =>
    obtain ⟨before, entry, after, value, literal, rfl, -, leads, nonempty, rfl⟩ :=
      ofAttributes?_eq_some_iff.mp found
    exact ⟨mt String.toList_eq_nil_iff.mp nonempty, .named entry "class" value,
      List.mem_append_right _ List.mem_cons_self, literal, leads, rfl, rfl⟩

/-- A usage in an opening tag stands in it, and its group is not empty. -/
theorem openTag_holds_usage {cursor : Cursor} {tag : OpenTag} {role : Role} {usage : Usage}
    (read : (openTag cursor).value = some tag) (found : tagUsage? role tag.attributes = some usage) :
    usage.group ≠ [] ∧ cursor.Holds (openTag cursor).next usage.span usage.group := by
  obtain ⟨nonempty, entry, member, literal, leads, spanIs, groupIs⟩ :=
    exists_literal_of_tagUsage? found
  rw [spanIs, groupIs]
  exact ⟨groupIs ▸ nonempty, openTag_holds read member leads⟩

end ClassHoist.Markup
