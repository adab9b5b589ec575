import ClassHoist.Markup.Preorder
import ClassHoist.Text.Basic

/-! # Classes handed to components

A component is given classes by the first attribute named `class` of its tag. Only literal text at
the start of the value counts, and only if there is some.
-/

namespace ClassHoist

open Markup

/-- Classes handed to a component, as they stand in the source, and where they stand. -/
structure Usage where
  group : Text
  span : Span
  deriving DecidableEq, Repr

/-- An element with this role is a component. -/
def Markup.Role.isComponent : Role → Bool
  | .component .. => true
  | .special kind => kind.isComponent
  | .element .. => false

/-- The classes that the attributes of a component hand to it. -/
def Usage.ofAttributes? (attributes : List Attribute) : Option Usage :=
  match attributes.find? (·.name? == some "class") with
  | some (.named _ _ value) =>
    (value.leadingText?.filter (!·.raw.isEmpty)).map fun literal =>
      ⟨literal.raw.toList, literal.span⟩
  | _ => none

/-- The classes that a node hands to a component. -/
def Usage.ofNode? : Node → Option Usage
  | .element _ role attributes _ =>
    if role.isComponent then Usage.ofAttributes? attributes else none
  | _ => none

/-- The classes handed to components in a document, in source order. -/
def Markup.Document.usages (document : Document) : List Usage :=
  (nodesPreorder document.template.nodes).filterMap Usage.ofNode?

end ClassHoist
