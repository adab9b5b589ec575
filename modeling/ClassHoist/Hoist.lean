import ClassHoist.Markup.Reader
import ClassHoist.ReadableRange
import ClassHoist.Rule
import ClassHoist.RuleSite
import ClassHoist.SourceMap.Encoding
import ClassHoist.Usage

/-! # Moving the classes of components into global rules

The classes that a document hands to a component are replaced by one class name for the whole
group, and a global rule applies the classes to that name. So they reach elements inside the
component, which styles of the document itself do not.
-/

namespace ClassHoist

open Markup SourceMap

/-- Why a document could not be processed: it has faults, which carry spans of the document, or an
edit was refused. -/
inductive HoistError where
  | faults (faults : List Fault)
  | edit (error : EditError)
  deriving DecidableEq, Repr

/-- The first fault, and how many more there are. -/
def summarize : List Fault → String
  | [] => "unknown error"
  | [only] => only.cause.message
  | first :: rest => s!"{first.cause.message} (and {rest.length} more)"

/-- The wording of an error. -/
def HoistError.message : HoistError → String
  | .faults found => "failed to parse markup: " ++ summarize found
  | .edit error => "failed to rewrite markup: " ++ error.message

/-- A processed document: its text, and where that comes from. There is no map of a document that
was left alone. -/
structure Hoisted where
  code : Text
  map : Option Encoding

/-- Replace the classes handed to components by the names of their groups. -/
def renameGroups (stripped : Stripped) (usages : List Usage) (patch : Patch) :
    Except EditError Patch :=
  usages.foldlM (fun patch usage =>
    let span := stripped.mapSpan usage.span
    patch.overwrite span.start span.stop (groupName usage.group)) patch

/-- The rules for a document in which the groups have been replaced: those of each group, once, in
order of first appearance, and those of marked classes. -/
def documentRules (options : Options) (usages : List Usage) (renamed : Text) : List GlobalRule :=
  let groups := (usages.map Usage.group).eraseDups
  groups.flatMap (groupRules · options.rtl) ++
    if options.scansTokens then tokenRules options (Directive.strip renamed) else []

/-- The edits that move the classes of a document into rules. -/
def hoistPatch (options : Options) (content : Text) (stripped : Stripped) (document : Document) :
    Except EditError Patch := do
  let usages := document.usages
  let patch ← renameGroups stripped usages (Patch.ofSource content)
  let rules := documentRules options usages patch.output
  if rules.isEmpty then return patch
  let contentStart := document.style.map (·.contentSpan.start)
  let (_, placed) ← patch.placeRules stripped contentStart (GlobalRule.renderAll rules)
  return placed

/-- Process a document. -/
def hoist (options : Options) (content : Text) (file : Option String) :
    Except HoistError Hoisted :=
  match (ReadableRange.ofContent content).start? with
  | none => .ok ⟨content, none⟩
  | some start =>
    let stripped := Stripped.ofDocument content start
    match read? stripped.text with
    | .error faults =>
      .error (.faults (faults.map fun fault => ⟨fault.cause, stripped.mapSpan fault.span⟩))
    | .ok document =>
      match hoistPatch options content stripped document with
      | .error error => .error (.edit error)
      | .ok patch =>
        let code := renameMarkers options patch.output
        .ok ⟨code, some (patch.table.encode content code ⟨file, true, false⟩)⟩

end ClassHoist
