import ClassHoist.Span

/-! # The tree of a component file

A component file has at most one script per context, at most one style, and a template: a tree of
text, comments, expressions, special tags, elements and blocks. Everything carries the span of
bytes it was read from, and opaque parts carry their text as it stands in the source.
-/

namespace ClassHoist.Markup

/-- A JavaScript expression in braces: its span with the braces, and the span and the text of the
code. -/
structure Embedded where
  span : Span
  codeSpan : Span
  code : String
  deriving DecidableEq, Repr, Inhabited

/-- Literal text in an attribute value, as it stands in the source. -/
structure Literal where
  span : Span
  raw : String
  deriving DecidableEq, Repr, Inhabited

/-- A part of a quoted value that mixes text and expressions. -/
inductive ValuePart where
  | text (literal : Literal)
  | expression (embedded : Embedded)
  deriving DecidableEq, Repr

/-- The value of a named attribute: none, so that the attribute is switched on, literal text, quoted
or not, an expression alone, or a quoted value that holds at least one expression. -/
inductive Value where
  | absent
  | text (literal : Literal)
  | expression (embedded : Embedded)
  | mixed (parts : List ValuePart)
  deriving DecidableEq, Repr

/-- The literal text with which a value starts. -/
def Value.leadingText? : Value → Option Literal
  | .text literal => some literal
  | .mixed (.text literal :: _) => some literal
  | _ => none

/-- An attribute in an opening tag: a name, with or without a value, all the attributes of an
object, an attribute named like the variable that holds its value, or code that is attached to the
element. -/
inductive Attribute where
  | named (span : Span) (name : String) (value : Value)
  | spread (span : Span) (code : String)
  | shorthand (span : Span) (name : String)
  | attach (span : Span) (code : String)
  deriving DecidableEq, Repr

/-- The name of an attribute that has one. -/
def Attribute.name? : Attribute → Option String
  | .named _ name _ => some name
  | .shorthand _ name => some name
  | .spread .. => none
  | .attach .. => none

/-- The bytes of an attribute. -/
def Attribute.span : Attribute → Span
  | .named span .. => span
  | .spread span _ => span
  | .shorthand span _ => span
  | .attach span _ => span

/-- The special elements, whose names start with `svelte:`. They stand for the component itself, for
a component or an element chosen by an expression, for the window, the document, its body or its
head, for options of the component, for content for a slot without an element of its own, and for a
boundary for errors. -/
inductive SpecialElement where
  | self
  | component
  | element
  | window
  | document
  | body
  | head
  | options
  | fragment
  | boundary
  deriving DecidableEq, Repr

namespace SpecialElement

/-- The special element of a name, given the part after `svelte:`. -/
def ofSuffix? : String → Option SpecialElement
  | "self" => some .self
  | "component" => some .component
  | "element" => some .element
  | "window" => some .window
  | "document" => some .document
  | "body" => some .body
  | "head" => some .head
  | "options" => some .options
  | "fragment" => some .fragment
  | "boundary" => some .boundary
  | _ => none

/-- The element stands for a component. -/
def isComponent : SpecialElement → Bool
  | .self | .component => true
  | _ => false

end SpecialElement

/-- The special tags, which open with a brace and `@`: markup from a string, a local constant, a
debugger statement, and a snippet put in place. -/
inductive SpecialTag where
  | html
  | const
  | debug
  | render
  deriving DecidableEq, Repr

/-- The special tag of a keyword. -/
def SpecialTag.ofKeyword? : String → Option SpecialTag
  | "html" => some .html
  | "const" => some .const
  | "debug" => some .debug
  | "render" => some .render
  | _ => none

/-- The branches with which a block can go on after its body: otherwise, otherwise under a
condition, for a promise that was kept, and for one that was broken. -/
inductive BranchKind where
  | otherwise
  | otherwiseIf
  | kept
  | broken
  deriving DecidableEq, Repr

/-- Every kind of branch. -/
def BranchKind.all : List BranchKind := [.otherwise, .otherwiseIf, .kept, .broken]

/-- The kinds of block: a condition, a repetition over a list, a promise that is waited for, content
that is made anew when a value changes, and a piece of markup to be rendered elsewhere. -/
inductive BlockKind where
  | conditional
  | each
  | await
  | key
  | snippet
  deriving DecidableEq, Repr

namespace BlockKind

/-- The block of a keyword. -/
def ofKeyword? : String → Option BlockKind
  | "if" => some .conditional
  | "each" => some .each
  | "await" => some .await
  | "key" => some .key
  | "snippet" => some .snippet
  | _ => none

/-- The keyword of a block. -/
def keyword : BlockKind → String
  | .conditional => "if"
  | .each => "each"
  | .await => "await"
  | .key => "key"
  | .snippet => "snippet"

/-- The block can have a branch of the kind. -/
def accepts : BlockKind → BranchKind → Bool
  | .conditional, .otherwise | .conditional, .otherwiseIf => true
  | .each, .otherwise => true
  | .await, .kept | .await, .broken => true
  | _, _ => false

/-- A keyword names the block that has it, and no other text names a block. -/
theorem ofKeyword?_eq_some_iff {word : String} {kind : BlockKind} :
    ofKeyword? word = some kind ↔ word = kind.keyword := by
  constructor
  · intro found
    unfold ofKeyword? at found
    split at found <;> simp_all <;> subst found <;> rfl
  · rintro rfl
    cases kind <;> rfl

end BlockKind

/-- What an element is: an element of the document, a use of another component, or a special
element. -/
inductive Role where
  | element (name : String) (selfClosing : Bool)
  | component (name : String) (selfClosing : Bool)
  | special (kind : SpecialElement)
  deriving DecidableEq, Repr

/-- Nodes in source order, and the bytes they were read from. -/
structure Fragment (Content : Type) where
  nodes : List Content
  span : Span
  deriving Repr, Inhabited

/-- A branch of a block, from the tag that starts it: its kind, its condition, value or error, and
its content. -/
structure Branch (Content : Type) where
  span : Span
  kind : BranchKind
  code : String
  body : Fragment Content
  deriving Repr

/-- A node of the template: text up to the next tag or brace, a comment, whose data is what stands
between its marks, an expression whose value is shown, a special tag, an element with its attributes
and children, or a block with its opening tag, its body and its branches. -/
inductive Node where
  | text (span : Span) (data : String)
  | comment (span : Span) (data : String)
  | expression (embedded : Embedded)
  | tag (kind : SpecialTag) (embedded : Embedded)
  | element (span : Span) (role : Role) (attributes : List Attribute) (children : List Node)
  | block (span : Span) (kind : BlockKind) (header : Embedded) (body : Fragment Node)
      (branches : List (Branch Node))
  deriving Repr, Inhabited

/-- The bytes of a node. -/
def Node.span : Node → Span
  | .text span _ => span
  | .comment span _ => span
  | .expression embedded => embedded.span
  | .tag _ embedded => embedded.span
  | .element span .. => span
  | .block span .. => span

/-- The language of a script, JavaScript unless another one is declared. -/
inductive ScriptLanguage where
  | javaScript
  | typeScript
  deriving DecidableEq, Repr

/-- When a script runs: for each instance of the component, or once, when the module is loaded. -/
inductive ScriptContext where
  | perInstance
  | perModule
  deriving DecidableEq, Repr

/-- A script of the component: its span with the tags, the span and the text between them, the
language it declares, when it runs, and the attributes of its tag. -/
structure Script where
  span : Span
  contentSpan : Span
  content : String
  language : ScriptLanguage
  context : ScriptContext
  attributes : List Attribute
  deriving DecidableEq, Repr

/-- The style of the component: its span with the tags, the span and the text between them, and the
attributes of its tag. -/
structure Style where
  span : Span
  contentSpan : Span
  content : String
  attributes : List Attribute
  deriving DecidableEq, Repr

/-- A component file: the script that runs once, the script that runs for each instance, the style,
and the template. -/
structure Document where
  moduleScript : Option Script
  instanceScript : Option Script
  style : Option Style
  template : Fragment Node
  deriving Repr

end ClassHoist.Markup
