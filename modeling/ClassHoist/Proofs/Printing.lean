import ClassHoist.Proofs.Balanced
import ClassHoist.Proofs.NodeNesting
import ClassHoist.Proofs.Respan

/-! # Printing a tree

A tree is printed without looking at the spans in it (`Node.print`), so only the tree without them
can be read again (`Node.bare`). Nodes that can be told apart when read again are printable
(`Node.Printable`): text holds no tag and no brace, expressions are trimmed and balanced, and the
names in tags are names of elements whose content is markup.
-/

namespace ClassHoist.Markup

/-- Text in braces. -/
def braces (inner : Text) : Text := '\x7b' :: (inner ++ ['\x7d'])

/-- A keyword and the code behind it, if there is any. -/
def clause (keyword code : Text) : Text :=
  if code.isEmpty then keyword else keyword ++ ' ' :: code

/-- The text of a part of a quoted value. -/
def ValuePart.print : ValuePart → Text
  | .text literal => literal.raw.toList
  | .expression embedded => braces embedded.code.toList

/-- The text of a value, behind the name of the attribute. -/
def Value.print : Value → Text
  | .absent => []
  | .text literal => '=' :: '"' :: (literal.raw.toList ++ ['"'])
  | .expression embedded => '=' :: braces embedded.code.toList
  | .mixed parts => '=' :: '"' :: (parts.flatMap ValuePart.print ++ ['"'])

/-- The text of an attribute. -/
def Attribute.print : Attribute → Text
  | .named _ name value => name.toList ++ value.print
  | .spread _ code => braces (['.', '.', '.'] ++ code.toList)
  | .shorthand _ name => braces name.toList
  | .attach _ code => braces ('@' :: clause "attach".toList code.toList)

/-- The attributes of a tag, each behind a space. -/
def printAttributes (attributes : List Attribute) : Text :=
  attributes.flatMap fun attr => ' ' :: attr.print

/-- The keyword of a special tag. -/
def SpecialTag.keyword : SpecialTag → String
  | .html => "html"
  | .const => "const"
  | .debug => "debug"
  | .render => "render"

/-- The words with which a branch starts. -/
def BranchKind.lead : BranchKind → Text
  | .otherwise => "else".toList
  | .otherwiseIf => "else if".toList
  | .kept => "then".toList
  | .broken => "catch".toList

/-- The element is printed with a tag that closes itself. -/
def Role.selfClosing : Role → Bool
  | .element _ selfClosing => selfClosing
  | .component _ selfClosing => selfClosing
  | .special _ => false

/-- The closing tag of an element. -/
def Role.printClosing (role : Role) : Text :=
  if role.selfClosing then [] else closingLead role.name ++ ['>']

mutual

/-- The text of a node. -/
def Node.print : Node → Text
  | .text _ data => data.toList
  | .comment _ data => ['<', '!', '-', '-'] ++ (data.toList ++ ['-', '-', '>'])
  | .expression embedded => braces embedded.code.toList
  | .tag kind embedded => braces ('@' :: clause kind.keyword.toList embedded.code.toList)
  | .element _ role attributes children =>
    '<' :: (role.name.toList ++ (printAttributes attributes ++ (tagEnd role.selfClosing ++
      (printNodes children ++ role.printClosing))))
  | .block _ kind header ⟨nodes, _⟩ branches =>
    braces ('#' :: clause kind.keyword.toList header.code.toList) ++ (printNodes nodes ++
      (printBranches branches ++ braces ('/' :: kind.keyword.toList)))

/-- The text of the nodes of a list. -/
def printNodes : List Node → Text
  | [] => []
  | node :: rest => node.print ++ printNodes rest

/-- The text of the branches of a block. -/
def printBranches : List (Branch Node) → Text
  | [] => []
  | ⟨_, kind, code, ⟨nodes, _⟩⟩ :: rest =>
    braces (':' :: clause kind.lead code.toList) ++ (printNodes nodes ++ printBranches rest)

end

/-- The attribute without its places. -/
def Attribute.bare (attr : Attribute) : Attribute := attr.mapSpans fun _ => Span.empty 0

/-- The node and all nodes inside it without their places. -/
def Node.bare (node : Node) : Node := node.mapSpans fun _ => Span.empty 0

/-- The branch and all nodes inside it without their places. -/
def Branch.bare (branch : Branch Node) : Branch Node := branch.mapSpans fun _ => Span.empty 0

/-- The code of an expression that can stand in braces: it is not empty, there is no white space
around it, it does not start as the code of a block or tag, and whatever is opened in it is
closed. -/
structure Expression.Printable (code : Text) : Prop where
  nonempty : code ≠ []
  trimmed : Text.trim code = code
  plain : ∀ c ∈ code.head?, c ≠ '#' ∧ c ≠ '/' ∧ c ≠ ':' ∧ c ≠ '@'
  balanced : Expression.Balanced .code code

/-- Values that can be read again: none, text without the quote and without expressions, and an
expression. -/
inductive Value.Printable : Value → Prop
  | absent : Printable .absent
  | text {literal : Literal} : (∀ c ∈ literal.raw.toList, isLiteralChar '"' c = true) →
      Printable (.text literal)
  | expression {embedded : Embedded} : Expression.Printable embedded.code.toList →
      Printable (.expression embedded)

/-- Attributes that can be read again: a name with a value or without one, and the attributes of an
object. -/
inductive Attribute.Printable : Attribute → Prop
  | named {span : Span} {name : String} {value : Value} : IsWord name.toList → value.Printable →
      Printable (.named span name value)
  | spread {span : Span} {code : String} : Expression.Printable code.toList →
      Printable (.spread span code)

/-- The name of an element that is no special element. -/
structure TagName (name : String) : Prop where
  isName : isName name.toList = true
  ordinary : ¬ "svelte:".toList <+: name.toList

/-- Elements of the document whose content is markup, and components. -/
inductive Role.Printable : Role → Prop
  | element {name : String} {selfClosing : Bool} : TagName name → namesComponent name = false →
      isVoid name = false → name ∉ ["script", "style", "textarea"] →
      Printable (.element name selfClosing)
  | component {name : String} {selfClosing : Bool} : TagName name → namesComponent name = true →
      Printable (.component name selfClosing)

/-- The node is text. -/
def Node.isText : Node → Bool
  | .text .. => true
  | _ => false

/-- The name in the tag of a node that has one. -/
def Node.tagName? : Node → Option String
  | .element _ role _ _ => some role.name
  | _ => none

/-- No two texts are next to each other. -/
def TextsApart (nodes : List Node) : Prop :=
  nodes.IsChain fun first second => first.isText = false ∨ second.isText = false

/-- The code of a branch can stand behind its words; a branch that is taken otherwise has none. -/
def BranchKind.Takes : BranchKind → String → Prop
  | .otherwise, code => code = ""
  | _, code => code = "" ∨ Expression.Printable code.toList

/-- Nodes that can be read again: text, a comment that does not hold its own end, an expression, an
element none of whose children closes it, and a block with branches that it takes. -/
inductive Node.Printable : Node → Prop
  | text {span : Span} {data : String} : data ≠ "" → (∀ c ∈ data.toList, isTextChar c = true) →
      Printable (.text span data)
  | comment {span : Span} {data : String} : ¬ ['-', '-', '>'] <:+: data.toList →
      Printable (.comment span data)
  | expression {embedded : Embedded} : Expression.Printable embedded.code.toList →
      Printable (.expression embedded)
  | element {span : Span} {role : Role} {attributes : List Attribute} {children : List Node} :
      role.Printable → (∀ attr ∈ attributes, attr.Printable) →
      (role.selfClosing = true → children = []) → TextsApart children →
      (∀ child ∈ children, ∀ name ∈ child.tagName?, closesSibling name [role.scope] = false) →
      (∀ child ∈ children, child.Printable) → Printable (.element span role attributes children)
  | block {span : Span} {kind : BlockKind} {header : Embedded} {body : Fragment Node}
      {branches : List (Branch Node)} :
      Expression.Printable header.code.toList → TextsApart body.nodes →
      (∀ branch ∈ branches, kind.accepts branch.kind = true ∧ branch.kind.Takes branch.code ∧
        TextsApart branch.body.nodes) →
      (∀ node ∈ body.nodes, node.Printable) →
      (∀ branch ∈ branches, ∀ node ∈ branch.body.nodes, node.Printable) →
      Printable (.block span kind header body branches)

/-- Whatever is no text starts with a tag or a brace. -/
theorem startsConstruct_print {node : Node} (noText : node.isText = false) (rest : Text) :
    StartsConstruct (node.print ++ rest) := by
  cases node with
  | text => cases noText
  | comment | expression | tag | element =>
    intro c isHead
    unfold Node.print at isHead
    exact Option.some.inj isHead ▸ rfl
  | block span kind header body branches =>
    obtain ⟨nodes, bodySpan⟩ := body
    intro c isHead
    unfold Node.print at isHead
    exact Option.some.inj isHead ▸ rfl

end ClassHoist.Markup
