import ClassHoist.Markup.Fault

/-! # A tree at other places

What is read can be told apart from where it was read: `mapSpans` exchanges every span in a tree for
another one and keeps the rest. A text that follows another is read as the same tree with all spans
shifted.
-/

namespace ClassHoist

/-- The span of as many bytes that much further on. -/
def Span.shift (length : Nat) (span : Span) : Span := ⟨length + span.start, length + span.stop⟩

namespace Markup

section MapSpans

variable (f : Span → Span)

/-- The expression at other places. -/
def Embedded.mapSpans (embedded : Embedded) : Embedded :=
  ⟨f embedded.span, f embedded.codeSpan, embedded.code⟩

/-- The literal text at another place. -/
def Literal.mapSpans (literal : Literal) : Literal := ⟨f literal.span, literal.raw⟩

/-- The part of a value at other places. -/
def ValuePart.mapSpans : ValuePart → ValuePart
  | .text literal => .text (literal.mapSpans f)
  | .expression embedded => .expression (embedded.mapSpans f)

/-- The value at other places. -/
def Value.mapSpans : Value → Value
  | .absent => .absent
  | .text literal => .text (literal.mapSpans f)
  | .expression embedded => .expression (embedded.mapSpans f)
  | .mixed parts => .mixed (parts.map (ValuePart.mapSpans f))

/-- The attribute at other places. -/
def Attribute.mapSpans : Attribute → Attribute
  | .named span name value => .named (f span) name (value.mapSpans f)
  | .spread span code => .spread (f span) code
  | .shorthand span name => .shorthand (f span) name
  | .attach span code => .attach (f span) code

mutual

/-- The node and all nodes inside it at other places. -/
def Node.mapSpans : Node → Node
  | .text span data => .text (f span) data
  | .comment span data => .comment (f span) data
  | .expression embedded => .expression (embedded.mapSpans f)
  | .tag kind embedded => .tag kind (embedded.mapSpans f)
  | .element span role attributes children =>
    .element (f span) role (attributes.map (Attribute.mapSpans f)) (nodesMapSpans children)
  | .block span kind header ⟨nodes, bodySpan⟩ branches =>
    .block (f span) kind (header.mapSpans f) ⟨nodesMapSpans nodes, f bodySpan⟩
      (branchesMapSpans branches)

/-- The nodes of a list and all nodes inside them at other places. -/
def nodesMapSpans : List Node → List Node
  | [] => []
  | node :: rest => node.mapSpans :: nodesMapSpans rest

/-- The branches and all nodes inside them at other places. -/
def branchesMapSpans : List (Branch Node) → List (Branch Node)
  | [] => []
  | ⟨span, kind, code, ⟨nodes, bodySpan⟩⟩ :: rest =>
    ⟨f span, kind, code, ⟨nodesMapSpans nodes, f bodySpan⟩⟩ :: branchesMapSpans rest

end

/-- The fragment and all nodes inside it at other places. -/
def Fragment.mapSpans (fragment : Fragment Node) : Fragment Node :=
  ⟨fragment.nodes.map (Node.mapSpans f), f fragment.span⟩

/-- The branch and all nodes inside it at other places. -/
def Branch.mapSpans (branch : Branch Node) : Branch Node :=
  ⟨f branch.span, branch.kind, branch.code, branch.body.mapSpans f⟩

theorem nodesMapSpans_eq (nodes : List Node) :
    nodesMapSpans f nodes = nodes.map (Node.mapSpans f) := by
  induction nodes with
  | nil => rfl
  | cons node rest ih => rw [nodesMapSpans, ih, List.map_cons]

theorem branchesMapSpans_eq (branches : List (Branch Node)) :
    branchesMapSpans f branches = branches.map (Branch.mapSpans f) := by
  induction branches with
  | nil => rfl
  | cons branch rest ih =>
    obtain ⟨span, kind, code, ⟨nodes, bodySpan⟩⟩ := branch
    rw [branchesMapSpans, ih, List.map_cons, nodesMapSpans_eq]
    rfl

theorem Node.mapSpans_element (span : Span) (role : Role) (attributes : List Attribute)
    (children : List Node) :
    (Node.element span role attributes children).mapSpans f =
      .element (f span) role (attributes.map (Attribute.mapSpans f))
        (children.map (Node.mapSpans f)) := by
  rw [Node.mapSpans, nodesMapSpans_eq]

theorem Node.mapSpans_block (span : Span) (kind : BlockKind) (header : Embedded)
    (body : Fragment Node) (branches : List (Branch Node)) :
    (Node.block span kind header body branches).mapSpans f =
      .block (f span) kind (header.mapSpans f) (body.mapSpans f)
        (branches.map (Branch.mapSpans f)) := by
  obtain ⟨nodes, bodySpan⟩ := body
  rw [Node.mapSpans, nodesMapSpans_eq, branchesMapSpans_eq]
  rfl

/-- The script at other places. -/
def Script.mapSpans (script : Script) : Script :=
  { script with
    span := f script.span
    contentSpan := f script.contentSpan
    attributes := script.attributes.map (Attribute.mapSpans f) }

/-- The style at other places. -/
def Style.mapSpans (style : Style) : Style :=
  ⟨f style.span, f style.contentSpan, style.content, style.attributes.map (Attribute.mapSpans f)⟩

/-- The fault at another place. -/
def Fault.mapSpans (fault : Fault) : Fault := ⟨fault.cause, f fault.span⟩

end MapSpans

end Markup

end ClassHoist
