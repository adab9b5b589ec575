import ClassHoist.Directive
import ClassHoist.Patch

/-! # A place for the rules

Rules go to the start of the style of a document, before anything that was cut out there. If there
is no style, or its content does not follow an opening tag, they go into a new one at the end.
-/

namespace ClassHoist

/-- Where rules were put: into the style of the document, at an offset, or into a new style at the
end. -/
inductive RuleSite where
  | ownStyle (offset : Nat)
  | newStyle
  deriving DecidableEq, Repr

/-- The text ends with a tag that opens an element with content. -/
def endsWithOpenTag (text : Text) : Bool :=
  match text.reverse with
  | '>' :: '/' :: _ => false
  | '>' :: _ => true
  | _ => false

/-- The document offset at which rules can be put, given where the content of the style starts in
the text that was read. -/
def styleOffset? (source : Text) (stripped : Stripped) (contentStart : Nat) : Option Nat := do
  guard (contentStart ≤ stripped.text.bytes)
  let offset := stripped.mapEnd contentStart
  let (before, _) ← Text.splitAt? offset source
  guard (endsWithOpenTag before)
  return offset

/-- Put rules into a document, given where the content of its style starts in the text that was
read, if it has a style. -/
def Patch.placeRules (patch : Patch) (stripped : Stripped) (contentStart : Option Nat)
    (rules : Text) : Except EditError (RuleSite × Patch) :=
  match contentStart.bind (styleOffset? patch.source stripped) with
  | some offset => do
    let placed ← patch.insert offset rules
    return (.ownStyle offset, placed)
  | none =>
    .ok (.newStyle, patch.append ("<style>".toList ++ rules ++ "</style>".toList))

end ClassHoist
