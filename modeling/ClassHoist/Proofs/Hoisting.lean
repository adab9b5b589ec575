import ClassHoist.Hoist
import ClassHoist.Proofs.DirectiveOffsets
import ClassHoist.Proofs.Edits
import ClassHoist.Proofs.Matches
import ClassHoist.Proofs.ReadRun

/-! # The edits of a document

The classes handed to components are replaced one after the other, each behind those before it, and
the rules go to a place inside none of them. So every edit of a document that could be read is
accepted, and the patch is known in full (`hoistPatch_eq_ok`). A document is refused only for its
faults (`hoist_accepts`).
-/

namespace ClassHoist

open Markup

namespace Patch

variable {patch : Patch} {edits : List Overwrite}

/-- Without its last ranges, a patch is still one whose edits fit together. -/
theorem Sound.of_append {more : List Overwrite}
    (sound : Sound { patch with overwrites := edits ++ more }) :
    Sound { patch with overwrites := edits } where
  nonempty edit member := sound.nonempty edit (List.mem_append_left _ member)
  bounded edit member := sound.bounded edit (List.mem_append_left _ member)
  apart := (List.pairwise_append.mp sound.apart).1
  placed := sound.placed
  ordered := sound.ordered
  outside entry isInsertion edit member :=
    sound.outside entry isInsertion edit (List.mem_append_left _ member)

/-- A range behind all others is put at the end. -/
theorem insertOverwrite_eq_append {new : Overwrite}
    (behind : ∀ edit ∈ edits, edit.start ≤ new.start) :
    insertOverwrite new edits = edits ++ [new] := by
  induction edits with
  | nil => rfl
  | cons old rest ih =>
    have notBefore : ¬ new.start < old.start := Nat.not_lt.mpr (behind old List.mem_cons_self)
    rw [insertOverwrite, if_neg notBefore, ih]
    · rfl
    · exact fun edit member => behind edit (List.mem_cons_of_mem _ member)

/-- Ranges that fit together, and with what is there already, are all overwritten, each behind
those before it. -/
theorem foldlM_overwrite_eq_ok
    (sound : Sound { patch with overwrites := patch.overwrites ++ edits }) :
    edits.foldlM (fun patch edit =>
        unlessRefused (patch.overwrite edit.start edit.stop edit.text)) patch =
      .ok { patch with overwrites := patch.overwrites ++ edits } := by
  induction edits generalizing patch with
  | nil =>
    rw [List.append_nil]
    rfl
  | cons edit rest ih =>
    rw [List.append_cons] at sound
    have done : Sound { patch with overwrites := patch.overwrites ++ [edit] } := sound.of_append
    have isIn : edit ∈ patch.overwrites ++ [edit] := List.mem_append_right _ List.mem_cons_self
    have behind : ∀ old ∈ patch.overwrites, old.stop ≤ edit.start := fun old member =>
      (List.pairwise_append.mp done.apart).2.2 old member edit List.mem_cons_self
    have can : patch.CanOverwrite edit.start edit.stop :=
      ⟨done.nonempty edit isIn, done.bounded edit isIn,
        fun old member => .inl (behind old member),
        fun entry member => done.outside entry member edit isIn⟩
    have accepted : unlessRefused (patch.overwrite edit.start edit.stop edit.text) =
        .ok { patch with overwrites := patch.overwrites ++ [edit] } := by
      refine unlessRefused_eq_ok_iff.mpr (done.of_append.overwrite_eq_ok_iff.mpr ⟨can, ?_⟩)
      rw [insertOverwrite_eq_append]
      intro old member
      have oldNonempty := done.nonempty old (List.mem_append_left _ member)
      exact Nat.le_of_lt (Nat.lt_of_lt_of_le oldNonempty (behind old member))
    rw [List.foldlM_cons, accepted, List.append_cons patch.overwrites edit rest]
    exact @ih { patch with overwrites := patch.overwrites ++ [edit] } sound

end Patch

/-- The edit that replaces the classes handed to a component by the name of their group. -/
def Stripped.edit (stripped : Stripped) (usage : Usage) : Overwrite :=
  let span := stripped.mapSpan usage.span
  ⟨span.start, span.stop, groupName usage.group⟩

/-- Rules go where the content of the style starts, behind a tag that opens an element with content. -/
theorem eq_mapEnd_of_styleOffset? {source : Text} {stripped : Stripped} {contentStart offset : Nat}
    (found : styleOffset? source stripped contentStart = some offset) :
    offset = stripped.mapEnd contentStart ∧ ∃ before after,
      Text.splitAt? offset source = some (before, after) ∧ endsWithOpenTag before = true := by
  obtain ⟨_, -, cutAt⟩ := Option.bind_eq_some_iff.mp found
  obtain ⟨⟨before, after⟩, isParts, checked⟩ := Option.bind_eq_some_iff.mp cutAt
  obtain ⟨_, passes, same⟩ := Option.bind_eq_some_iff.mp checked
  have isPlace := Option.some.inj same
  subst isPlace
  refine ⟨rfl, before, after, isParts, Bool.of_not_eq_false fun no => ?_⟩
  rw [no, show guard (false = true) = (none : Option Unit) from rfl] at passes
  cases passes

/-- A document that has been read from a part of a content without faults. -/
structure Readable (content : Text) (stripped : Stripped) (document : Document) : Prop where
  small : content.bytes ≤ Offset.limit
  isFrom : stripped.IsFrom content
  placed : document.Placed stripped.text

/-- A document is processed if a part of it is read without faults. -/
theorem readable_of_read? {content : Text} (small : content.bytes ≤ Offset.limit) {start : Nat}
    (readable : (ReadableRange.ofContent content).start? = some start) {document : Document}
    (done : read? (Stripped.ofDocument content start).text = .ok document) :
    Readable content (Stripped.ofDocument content start) document :=
  ⟨small, Stripped.isFrom_ofDocument (ReadableRange.isBoundary_of_start? readable),
    placed_of_read? done⟩

namespace Readable

variable {content : Text} {stripped : Stripped} {document : Document}

/-- The range of an edit holds the classes it replaces, and what was cut out among them. -/
theorem edit_stands (readable : Readable content stripped document) {usage : Usage}
    (member : usage ∈ document.usages) :
    stripped.edit usage =
        ⟨stripped.mapStart usage.span.start, stripped.mapEnd usage.span.stop,
          groupName usage.group⟩ ∧
      ∃ value, value ≠ [] ∧
        Text.Stands content (stripped.edit usage).start (stripped.edit usage).stop value ∧
        Text.outside stripped.removed (stripped.edit usage).start value = usage.group := by
  obtain ⟨nonempty, stands⟩ := readable.placed.holds usage member
  obtain ⟨value, valueNonempty, mapped, outside⟩ := readable.isFrom.stands_mapped stands nonempty
  have upTo := Text.bytes_le_of_isBoundary mapped.isBoundary_stop
  have ordered := mapped.start_lt_stop valueNonempty
  have small := readable.small
  have spanIs := Stripped.mapSpan_eq (stands.start_lt_stop nonempty)
    (Nat.le_of_lt (by omega)) (Nat.le_trans upTo small)
  have same : stripped.edit usage =
      ⟨stripped.mapStart usage.span.start, stripped.mapEnd usage.span.stop,
        groupName usage.group⟩ := by
    rw [Stripped.edit, spanIs]
  refine ⟨same, value, valueNonempty, ?_, ?_⟩
  · rw [same]
    exact mapped
  · rw [same]
    exact outside

/-- The edits of usages come one after the other. -/
theorem edits_apart (readable : Readable content stripped document) :
    (document.usages.map stripped.edit).Pairwise
      fun first second => first.stop ≤ second.start := by
  refine List.pairwise_map.mpr (readable.placed.ordered.imp_of_mem ?_)
  intro first second isFirst isSecond ordered
  rw [(readable.edit_stands isFirst).1, (readable.edit_stands isSecond).1]
  exact Stripped.mapEnd_le_mapStart ordered

/-- The edits of the classes fit together. -/
theorem edits_sound (readable : Readable content stripped document) :
    Patch.Sound ⟨content, document.usages.map stripped.edit, [], []⟩ where
  nonempty := by
    intro edit member
    obtain ⟨usage, isUsage, rfl⟩ := List.mem_map.mp member
    obtain ⟨-, value, nonempty, stands, -⟩ := readable.edit_stands isUsage
    exact stands.start_lt_stop nonempty
  bounded := by
    intro edit member
    obtain ⟨usage, isUsage, rfl⟩ := List.mem_map.mp member
    obtain ⟨-, value, -, stands, -⟩ := readable.edit_stands isUsage
    exact ⟨stands.isBoundary_start, stands.isBoundary_stop⟩
  apart := readable.edits_apart
  placed := by intro entry member; cases member
  ordered := List.Pairwise.nil
  outside := by intro entry member; cases member

/-- All classes handed to components are replaced. -/
theorem renameGroups_eq_ok (readable : Readable content stripped document) :
    renameGroups stripped document.usages (Patch.ofSource content) =
      .ok ⟨content, document.usages.map stripped.edit, [], []⟩ := by
  have all := @Patch.foldlM_overwrite_eq_ok (Patch.ofSource content)
    (document.usages.map stripped.edit) readable.edits_sound
  rw [List.foldlM_map] at all
  exact all

/-- The place chosen for the rules lies inside no overwritten range. -/
theorem canInsert (readable : Readable content stripped document) {offset : Nat}
    (chosen : (document.style.map (·.contentSpan.start)).bind (styleOffset? content stripped) =
      some offset) :
    Patch.CanInsert ⟨content, document.usages.map stripped.edit, [], []⟩ offset := by
  obtain ⟨place, isStart, found⟩ := Option.bind_eq_some_iff.mp chosen
  obtain ⟨style, isStyle, rfl⟩ := Option.map_eq_some_iff.mp isStart
  obtain ⟨boundary, apart⟩ := readable.placed.style style isStyle
  obtain ⟨rfl, -⟩ := eq_mapEnd_of_styleOffset? found
  refine ⟨readable.isFrom.isBoundary_mapEnd boundary, ?_⟩
  intro edit member
  obtain ⟨usage, isUsage, rfl⟩ := List.mem_map.mp member
  rw [(readable.edit_stands isUsage).1]
  rcases apart usage isUsage with before | after
  · exact .inr (Stripped.mapEnd_le_mapEnd before)
  · exact .inl (Stripped.mapEnd_le_mapStart after)

end Readable

/-- The place for rules in the style of the document, if there is one. -/
def ownSite? (content : Text) (stripped : Stripped) (document : Document) : Option Nat :=
  (document.style.map (·.contentSpan.start)).bind (styleOffset? content stripped)

/-- The rules of a document, rendered. -/
def renderedRules (options : Options) (content : Text) (stripped : Stripped)
    (document : Document) : Text :=
  GlobalRule.renderAll (documentRules options document.usages
    (Patch.output ⟨content, document.usages.map stripped.edit, [], []⟩))

/-- All edits of a document, when none of them is refused. -/
def documentPatch (options : Options) (content : Text) (stripped : Stripped)
    (document : Document) : Patch :=
  let rules := renderedRules options content stripped document
  let edits := document.usages.map stripped.edit
  if rules = [] then ⟨content, edits, [], []⟩
  else
    match ownSite? content stripped document with
    | some offset => ⟨content, edits, [⟨offset, rules⟩], []⟩
    | none => ⟨content, edits, [], "<style>".toList ++ rules ++ "</style>".toList⟩

/-- No rule is rendered as nothing. -/
theorem GlobalRule.render_ne_nil (rule : GlobalRule) : rule.render ≠ [] := by
  unfold render
  have first : " :global(".toList = ' ' :: ":global(".toList := by simp
  rw [first]
  simp only [List.cons_append, ne_eq, reduceCtorEq, not_false_eq_true]

/-- Nothing is rendered only if there are no rules. -/
theorem GlobalRule.renderAll_eq_nil_iff {rules : List GlobalRule} :
    renderAll rules = [] ↔ rules = [] := by
  cases rules with
  | nil => exact ⟨fun _ => rfl, fun _ => rfl⟩
  | cons rule rest =>
    simp only [renderAll, List.flatMap_cons, List.append_eq_nil_iff, rule.render_ne_nil,
      false_and, reduceCtorEq]

namespace Readable

variable {content : Text} {stripped : Stripped} {document : Document}

/-- **All edits are accepted.** -/
theorem hoistPatch_eq_ok (readable : Readable content stripped document) (options : Options) :
    hoistPatch options content stripped document =
      .ok (documentPatch options content stripped document) := by
  have sound := readable.edits_sound
  unfold hoistPatch documentPatch
  simp only [readable.renameGroups_eq_ok, bind, Except.bind, pure, Except.pure, List.isEmpty_iff]
  by_cases none : documentRules options document.usages
      (Patch.output ⟨content, document.usages.map stripped.edit, [], []⟩) = []
  · have noText : renderedRules options content stripped document = [] := by
      rw [renderedRules, none]
      rfl
    rw [if_pos none, if_pos noText]
  · have someText : renderedRules options content stripped document ≠ [] := fun empty =>
      none (GlobalRule.renderAll_eq_nil_iff.mp empty)
    rw [if_neg none, if_neg someText]
    unfold Patch.placeRules
    cases site : ownSite? content stripped document with
    | none =>
      unfold ownSite? at site
      simp only [site]
      rfl
    | some offset =>
      have accepted : Patch.unlessRefused (Patch.insert
          ⟨content, document.usages.map stripped.edit, [], []⟩ offset
          (renderedRules options content stripped document)) = .ok _ :=
        Patch.unlessRefused_eq_ok_iff.mpr
          (sound.insert_eq_ok_iff.mpr ⟨readable.canInsert site, rfl⟩)
      unfold ownSite? at site
      unfold renderedRules at accepted
      simp only [site, accepted, bind, Except.bind]
      rfl

/-- The edits of a document fit together. -/
theorem documentPatch_sound (readable : Readable content stripped document) (options : Options) :
    (documentPatch options content stripped document).Sound := by
  unfold documentPatch
  simp only
  split
  · exact readable.edits_sound
  · split
    case h_1 offset site => exact readable.edits_sound.insert (readable.canInsert site)
    case h_2 => exact Patch.append_sound readable.edits_sound _

end Readable

/-- **Only faults are refused.** A content that offsets can address is processed unless reading
what is left of its readable part without directives finds faults, and those are reported. No edit
is ever refused. -/
theorem hoist_accepts {content : Text} (small : content.bytes ≤ Offset.limit) (options : Options)
    (file : Option String) :
    (∀ refusal, hoist options content file ≠ .error (.edit refusal)) ∧
      ((∃ hoisted, hoist options content file = .ok hoisted) ∨
        ∃ start faults, (ReadableRange.ofContent content).start? = some start ∧
          read? (Stripped.ofDocument content start).text = .error faults ∧
          hoist options content file = .error (.faults (faults.map fun fault =>
            ⟨fault.cause, (Stripped.ofDocument content start).mapSpan fault.span⟩))) := by
  unfold hoist
  cases begins : (ReadableRange.ofContent content).start? with
  | none => exact ⟨fun _ impossible => (nomatch impossible), .inl ⟨_, rfl⟩⟩
  | some start =>
    simp only
    cases done : read? (Stripped.ofDocument content start).text with
    | error faults =>
      refine ⟨fun _ impossible => (nomatch impossible), .inr ⟨start, faults, rfl, done, rfl⟩⟩
    | ok document =>
      simp only [(readable_of_read? small begins done).hoistPatch_eq_ok options]
      exact ⟨fun _ impossible => (nomatch impossible), .inl ⟨_, rfl⟩⟩

/-- A class value with a directive in it, behind a style that starts with one. -/
theorem hoist_accepts_card :
    Text.bytes "<style>@apply p;</style><A class=\"a @apply b; c\"/>".toList ≤ Offset.limit ∧
      ∀ refusal, hoist ⟨true, true⟩
        "<style>@apply p;</style><A class=\"a @apply b; c\"/>".toList none ≠
          .error (.edit refusal) := by
  have small : Text.bytes "<style>@apply p;</style><A class=\"a @apply b; c\"/>".toList ≤
      Offset.limit := by decide
  exact ⟨small, (hoist_accepts small ⟨true, true⟩ none).1⟩

/-- A component with one class. -/
def card : Text := ['<', 'A', ' ', 'c', 'l', 'a', 's', 's', '=', 'b', '/', '>']

/-- Its tag. -/
def cardTag : OpenTag := ⟨0, "A", [.named ⟨3, 10⟩ "class" (.text ⟨⟨9, 10⟩, "b"⟩)], true⟩

/-- A tag with one attribute and no content. -/
theorem openTag_of_attribute? {cursor next : Cursor} {name : String} {attr : Attribute}
    (named : cursor.tagName? = some name)
    (first : attribute? cursor.bump.bump = some ⟨some attr, [], next⟩)
    (last : attribute? next = none) (closes : next.token.kind = .selfClose) :
    openTag cursor = ⟨some ⟨cursor.token.span.start, name, [attr], true⟩, [], next.bump⟩ := by
  have all : attributes cursor.bump.bump = ⟨[attr], [], next⟩ := by
    rw [attributes_of_attribute? first, attributes_of_attribute?_eq_none last]
    rfl
  unfold openTag
  simp only [named, all, closes, ↓reduceIte]

/-- The tag of the card is read as a whole. -/
theorem openTag_card : openTag (Cursor.start card) = ⟨some cardTag, [], ⟨12, []⟩⟩ := by
  have first : attribute? (Cursor.start card).bump.bump =
      some ⟨cardTag.attributes.head?, [], ⟨10, ['/', '>']⟩⟩ := by rfl
  have last : attribute? ⟨10, ['/', '>']⟩ = none := by rfl
  exact openTag_of_attribute? rfl first last rfl

/-- The card is read as a component without children. -/
theorem read?_card : read? card = .ok ⟨none, none, none,
    ⟨[.element ⟨0, 12⟩ (.component "A" true) cardTag.attributes []], ⟨0, 12⟩⟩⟩ := by
  have stepped : (Draft.start card).step = some (Draft.start card).readElement := by rfl
  have element : (Draft.start card).readElement = ⟨⟨12, []⟩, [],
      [.element ⟨0, 12⟩ (.component "A" true) cardTag.attributes []], none, none, none, []⟩ := by
    unfold Draft.readElement
    rw [show (Draft.start card).cursor = Cursor.start card from rfl, openTag_card]
    rfl
  unfold read? Markup.read
  rw [Draft.run_of_step stepped, element, Draft.run_of_step_eq_none (by rfl)]
  rfl

/-- A content that is read without faults is processed. -/
theorem exists_hoist {content : Text} {start : Nat} {document : Document}
    (small : Text.bytes content ≤ Offset.limit)
    (begins : (ReadableRange.ofContent content).start? = some start)
    (read : read? (Stripped.ofDocument content start).text = .ok document)
    (options : Options) (file : Option String) :
    ∃ map, hoist options content file = .ok ⟨renameMarkers options
      (documentPatch options content (Stripped.ofDocument content start) document).output,
        some map⟩ := by
  unfold hoist
  simp only [begins, read, (readable_of_read? small begins read).hoistPatch_eq_ok]
  exact ⟨_, rfl⟩

/-- A text without directives is left as it is. -/
theorem Stripped.ofDocument_eq {content : Text} (none : Directive.pattern.find? content = none) :
    Stripped.ofDocument content 0 = ⟨0, [], content⟩ := by
  simp only [Stripped.ofDocument, Text.splitAt?, Option.map_some, Option.getD_some,
    Pattern.hits_of_find?_eq_none none]

/-- A text without directives and without TypeScript is processed if it is read without faults. -/
theorem exists_hoist_of_read? {content : Text} {document : Document}
    (small : Text.bytes content ≤ Offset.limit)
    (begins : (ReadableRange.ofContent content).start? = some 0)
    (none : Directive.pattern.find? content = none) (read : read? content = .ok document)
    (options : Options) (file : Option String) :
    ∃ map, hoist options content file = .ok ⟨renameMarkers options
      (documentPatch options content ⟨0, [], content⟩ document).output, some map⟩ := by
  have alone := Stripped.ofDocument_eq none
  have read' : read? (Stripped.ofDocument content 0).text = .ok document := by
    rw [alone]
    exact read
  exact alone ▸ exists_hoist small begins read' options file

/-- One group of classes is handed to the component. -/
theorem groups_card {document : Document}
    (read : read? (Stripped.ofDocument card 0).text = .ok document) :
    document.usages.map Usage.group = [['b']] := by
  rw [Stripped.ofDocument_eq rfl] at read
  obtain rfl := Except.ok.inj (read?_card.symm.trans read)
  rfl

/-- The component is processed. -/
theorem hoist_card : ∃ code map, hoist ⟨false, false⟩ card none = .ok ⟨code, some map⟩ :=
  ⟨_, exists_hoist_of_read? (by decide) (by rfl) (by rfl) read?_card _ _⟩

end ClassHoist
