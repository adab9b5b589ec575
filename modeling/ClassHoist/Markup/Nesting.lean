import ClassHoist.Markup.Tree
import ClassHoist.Text.Pattern

/-! # Rules for nesting elements

Some elements have no content, the content of some is not markup, and some are closed by the tag
of a later sibling. These are rules of HTML, and they depend on the names of elements alone.
-/

namespace ClassHoist.Markup

/-- The elements that have no content and no closing tag. -/
def voidElements : List String :=
  ["area", "base", "br", "col", "embed", "hr", "img", "input", "link", "meta", "param", "source",
    "track", "wbr"]

/-- The name, in any letter case, is that of an element without content. -/
def isVoid (name : String) : Bool :=
  voidElements.contains (String.ofList (name.toList.map Char.toLower))

/-- The content of the element is not markup. -/
def hasRawContent (name : String) : Bool :=
  name == "script" || name == "style"

/-- The content of the element is text and expressions only. -/
def hasTextContent (name : String) : Bool :=
  name == "textarea"

/-- The tags that close an open element of a name when they open inside it. -/
def closedBy (current : String) : List String :=
  if current = "li" then ["li"]
  else if current = "dt" ∨ current = "dd" then ["dt", "dd"]
  else if current = "p" then
    ["address", "article", "aside", "blockquote", "div", "dl", "fieldset", "footer", "form", "h1",
      "h2", "h3", "h4", "h5", "h6", "header", "hgroup", "hr", "main", "menu", "nav", "ol", "p",
      "pre", "section", "table", "ul"]
  else if current = "rt" ∨ current = "rp" then ["rt", "rp"]
  else if current = "optgroup" then ["optgroup"]
  else if current = "option" then ["option", "optgroup"]
  else if current = "thead" ∨ current = "tbody" then ["tbody", "tfoot"]
  else if current = "tfoot" then ["tbody"]
  else if current = "tr" then ["tr", "tbody"]
  else if current = "td" ∨ current = "th" then ["td", "th", "tr"]
  else []

/-- The part of a name after `svelte:`, if it starts so. -/
def specialSuffix? (name : String) : Option String :=
  (Text.dropLead? "svelte:".toList name.toList).map String.ofList

/-- The name is that of a component: it starts with a capital letter or holds a dot. -/
def namesComponent (name : String) : Bool :=
  name.toList.contains '.' || (name.toList.head?.map Char.isUpper).getD false

/-- The special element of a name that starts with `svelte:`, if there is one. -/
def specialElement? (name : String) : Option SpecialElement :=
  (specialSuffix? name).bind SpecialElement.ofSuffix?

/-- What an element of a name is. -/
def Role.ofName (name : String) (selfClosing : Bool) : Role :=
  match specialElement? name with
  | some kind => .special kind
  | none =>
    if namesComponent name then .component name selfClosing else .element name selfClosing

/-- The name starts as that of a special element but there is none of that name. -/
def isUnknownSpecial (name : String) : Bool :=
  (specialSuffix? name).isSome && (specialElement? name).isNone

/-- An element or block around a place, as far as closing tags are concerned. An element of the
document can be closed by the tag of another one, and a component or special element only by its
own. -/
inductive Scope where
  | element (name : String)
  | component (name : String)
  | block
  deriving DecidableEq, Repr

/-- A closing tag of the name closes one of the scopes, innermost first, and only elements of the
document stand before it. -/
def closesEnclosing (name : String) : List Scope → Bool
  | [] => false
  | .element other :: outer => other == name || closesEnclosing name outer
  | .component other :: _ => other == name
  | .block :: _ => false

/-- An opening tag of the name closes the innermost of the scopes. -/
def closesSibling (name : String) : List Scope → Bool
  | .element current :: _ => (closedBy current).contains name
  | _ => false

/-- A closing tag of the name closes the innermost of the scopes without being its own closing
tag, because it closes one around it. -/
def closesAround (name : String) : List Scope → Bool
  | .element current :: outer => current != name && closesEnclosing name outer
  | _ => false

end ClassHoist.Markup
