import ClassHoist.Proofs.Copies
import ClassHoist.Proofs.Rereadable
import Mathlib

/-! # Processing a processed document

A document that can be read again (`Rereadable`) is read without faults once it has been processed: what
is left of the output without directives are the parts of the document, exchanged
(`Rereadable.exists_rewrites`), renamed, and perhaps a new style, which is the first one then
(`Draft.run_styleLead`). So it is processed again (`hoist_again`).

Nothing that is asked for can be left out. Of a document that lacks one thing only, what comes of it is
refused: for the names of its elements (`hoist_sameNames`), for rules that end their style
(`hoist_closingClass`), for a style that cannot take them (`hoist_bareStyle`), for a directive that is
open at the end (`hoist_openDirective`), or because more of it is read than of the document
(`hoist_cutDeclaration`).
-/

namespace ClassHoist

open Markup Directive

variable {content : Text} {document : Document}

namespace Rereadable

variable {options : Options} {start : Nat}

/-- The usages of the parts of a document are those of the document. -/
theorem isUsages_of_parted {source : Text} {exchange : Exchange} {parts : List Markup.Part}
    (done : read? source = .ok document)
    (parted : Draft.Parted options exchange (Draft.start source) parts) :
    parts.filterMap Markup.Part.usage? = document.usages := by
  rw [(run_of_read? done).2.1, parted.usages]
  rfl

/-- What is left of the content without directives is divided into the parts of the document. -/
theorem divided_of_parted (readable : Readable content (Stripped.ofDocument content start) document)
    (done : read? (Stripped.ofDocument content start).text = .ok document)
    {parts : List Markup.Part} (parted : Draft.Parted options
      (rewriting options content (Stripped.ofDocument content start) document)
      (Draft.start (Stripped.ofDocument content start).text) parts) :
    Divided content (Stripped.ofDocument content start)
      (rewriting options content (Stripped.ofDocument content start) document)
      (document.style.map (·.contentSpan.start)) parts where
  isFrom := readable.isFrom
  cut := Stripped.atDirectives_ofDocument content start
  named _ := rfl
  text := parted.text
  laid := (run_of_read? done).2.2 ▸ parted.laid
  spans := isUsages_of_parted done parted ▸ readable.placed.spans

/-- **The processed document.** What is left of it without directives are the parts of the document,
exchanged, and a new style with the rules if the document has none. -/
theorem exists_rewrites (asked : Rereadable options content start document)
    (readable : Readable content (Stripped.ofDocument content start) document)
    (done : read? (Stripped.ofDocument content start).text = .ok document) :
    ∃ parts, Draft.Parted options
        (rewriting options content (Stripped.ofDocument content start) document)
        (Draft.start (Stripped.ofDocument content start).text) parts ∧
      ∃ more, (more = [] ∨ document.style = none ∧ more = styleParts) ∧
        Rewrites (rewriting options content (Stripped.ofDocument content start) document) start
          (parts ++ more)
          (documentPatch options content (Stripped.ofDocument content start) document).output := by
  obtain ⟨parts, parted⟩ := asked.exists_parted readable done
  refine ⟨parts, parted, ?_⟩
  obtain ⟨-, -, isStyle⟩ := run_of_read? done
  have isUsages := isUsages_of_parted done parted
  have overwrites := readable.overwrites
  rw [← isUsages] at overwrites
  have divided := divided_of_parted readable done parted
  have settles := (GlobalRule.settles_renderAll
    (documentRules options document.usages (Patch.output
      ⟨content, document.usages.map (Stripped.ofDocument content start).edit, [], []⟩))).1
  have sound := readable.documentPatch_sound options
  unfold documentPatch at sound ⊢
  rw [← isUsages] at sound ⊢
  by_cases noRules : renderedRules options content (Stripped.ofDocument content start) document = []
  · refine ⟨[], .inl rfl, ?_⟩
    rw [List.append_nil]
    simp only [noRules, ↓reduceIte]
    exact divided.rewrites (rewriting_rules_eq_nil_iff.mpr noRules) overwrites
  · simp only [if_neg noRules] at sound ⊢
    have someRules := mt rewriting_rules_eq_nil_iff.mp noRules
    cases hasStyle : document.style with
    | some style =>
      obtain ⟨offset, isPlace⟩ :=
        Option.ne_none_iff_exists'.mp (asked.own noRules (hasStyle ▸ Option.some_ne_none style))
      simp only [isPlace] at sound ⊢
      refine ⟨[], .inl rfl, ?_⟩
      rw [List.append_nil]
      -- A style was read, so there is a place for rules among the parts, and only one.
      rcases parted.rules with ⟨-, none | unread⟩ | ⟨-, first, second, rfl, absent, absent'⟩
      · exact absurd none someRules
      · rw [← isStyle, hasStyle] at unread
        cases unread
      · rw [ownSite?, hasStyle] at isPlace
        rw [hasStyle] at divided
        exact divided.rewrites_insertion absent absent' settles overwrites
          (congrArg some (eq_mapEnd_of_styleOffset? isPlace).1.symm) sound
    | none =>
      have noPlace : ownSite? content (Stripped.ofDocument content start) document = none := by
        rw [ownSite?, hasStyle]
        rfl
      simp only [noPlace] at sound ⊢
      refine ⟨styleParts, .inr ⟨trivial, rfl⟩, ?_⟩
      have absent : .rules ∉ parts := fun member =>
        divided.laid.isSome_of_mem member (by rw [hasStyle]; rfl)
      refine divided.rewrites_appended absent ?_ settles overwrites
      obtain ⟨lead, isContent, base⟩ := readable.isFrom
      have stays := asked.appended noRules hasStyle
      rw [← stays]
      obtain rfl : Text.bytes lead = start := base
      rw [← Stripped.text_ofDocument_append, ← List.append_assoc, ← isContent]

end Rereadable

namespace Markup

/-- The tag of a new style has its name. -/
theorem tagName?_styleLead (offset : Nat) (rest : Text) :
    Cursor.tagName? ⟨offset, styleLead ++ rest⟩ = some "style" := by
  rw [tagName?_offset _ offset 0]
  rfl

/-- The tag of a new style is read without attributes. -/
theorem openTag_styleLead (offset : Nat) (rest : Text) :
    openTag ⟨offset, styleLead ++ rest⟩ =
      ⟨some ⟨offset, "style", [], false⟩, [], ⟨offset + 7, rest⟩⟩ := by
  have none : attribute? (Cursor.bump (Cursor.bump ⟨offset, styleLead ++ rest⟩)) = none := by rfl
  have closes : (Cursor.bump (Cursor.bump ⟨offset, styleLead ++ rest⟩)).token.kind = .tagEnd := by
    rfl
  unfold openTag
  simp only [tagName?_styleLead, attributes_of_attribute?_eq_none none, closes]
  rfl

/-- A new style is read without faults if nothing in its rules ends it. -/
theorem rawElement_styleLead {rules : Text} (form : BodyText "style" rules []) (offset : Nat) :
    (rawElement ⟨offset, styleLead ++ (rules ++ styleTail)⟩).Clean [] ∧
      (rawElement ⟨offset, styleLead ++ (rules ++ styleTail)⟩).value.isSome = true := by
  have isTail : styleTail = closingLead "style" ++ ([] ++ ['>']) := by decide
  have opens := openTag_styleLead offset (rules ++ styleTail)
  have body : RawText ⟨offset, "style", [], false⟩ (rules ++ styleTail) :=
    isTail ▸ .body rfl form
  obtain ⟨clean, raw, read, -⟩ := body.read plainName_style (congrArg Reading.value opens)
    ⟨congrArg Reading.faults opens, by rw [opens, List.append_nil]⟩
  exact ⟨clean, Option.isSome_iff_exists.mpr ⟨raw, read⟩⟩

namespace Draft

variable {draft : Draft}

/-- The tag that opens a new style is read as that of a style. -/
theorem step_styleLead {rest : Text} (top : draft.opened = [])
    (isRest : draft.cursor.rest = styleLead ++ rest) : draft.step = some draft.readStyle := by
  have place : draft.cursor = ⟨draft.cursor.offset, styleLead ++ rest⟩ := by rw [← isRest]
  have opens : draft.cursor.token.kind = .tagOpen := by
    rw [place]
    rfl
  have starts : StartsConstruct draft.cursor.rest := by
    rw [isRest]
    exact startsConstruct_cons rfl _
  rw [step_of_top starts top (opens ▸ nofun), readTop_of_style opens]
  rw [place]
  exact tagName?_styleLead _ _

/-- A new style at the end is read without faults, if it is the first. -/
theorem run_styleLead {rules : Text} (form : BodyText "style" rules []) (top : draft.opened = [])
    (first : draft.style = none) (clean : draft.faults = [])
    (isRest : draft.cursor.rest = styleLead ++ (rules ++ styleTail)) : draft.run.faults = [] := by
  have place : draft.cursor = ⟨draft.cursor.offset, styleLead ++ (rules ++ styleTail)⟩ := by
    rw [← isRest]
  obtain ⟨⟨noFaults, ends⟩, hasValue⟩ := rawElement_styleLead form draft.cursor.offset
  rw [← place] at noFaults ends hasValue
  obtain ⟨raw, read⟩ := Option.isSome_iff_exists.mp hasValue
  have styled : draft.readStyle = { draft with
      cursor := (rawElement draft.cursor).next
      style := some (Style.ofRaw raw) } := by
    unfold readStyle
    simp only [read, noFaults, first]
    rfl
  have ended : draft.readStyle.step = none := by
    rw [styled]
    exact step_eq_none_of_ended top ends
  rw [run_of_step (step_styleLead top isRest), run_of_step_eq_none ended, styled]
  exact clean

end Draft

/-- A second style is a fault. -/
theorem Draft.run_styleLead_again {draft : Draft} {rest : Text} (top : draft.opened = [])
    (again : draft.style.isSome = true) (isRest : draft.cursor.rest = styleLead ++ rest) :
    ∃ fault ∈ draft.run.faults, fault.cause = .duplicate "style" := by
  have hasValue : (rawElement draft.cursor).value.isSome = true := by
    have place : draft.cursor = ⟨draft.cursor.offset, styleLead ++ rest⟩ := by rw [← isRest]
    rw [place]
    unfold rawElement
    rw [openTag_styleLead]
    rfl
  obtain ⟨raw, read⟩ := Option.isSome_iff_exists.mp hasValue
  have noted : ⟨.duplicate "style", draft.cursor.token.span⟩ ∈ draft.readStyle.faults := by
    unfold readStyle
    simp only [read, again, ↓reduceIte]
    exact List.mem_cons_self
  rw [run_of_step (step_styleLead top isRest)]
  exact ⟨_, (run_faults _).subset noted, rfl⟩

/-- A text whose reading ends without faults is a document. -/
theorem read?_of_run {source : Text} (clean : (Draft.start source).run.faults = []) :
    ∃ document, read? source = .ok document := by
  unfold read? Markup.read
  simp only [clean]
  exact ⟨_, rfl⟩

/-- A text that is read with a fault is refused for all that are found. -/
theorem read?_of_mem_faults {source : Text} {fault : Fault}
    (member : fault ∈ (Draft.start source).run.faults) :
    read? source = .error (Draft.start source).run.faults.reverse := by
  unfold read? Markup.read
  split
  case h_1 none =>
    rw [List.reverse_eq_nil_iff.mp (Prod.mk.inj none).2] at member
    cases member
  case h_2 some => rw [(Prod.mk.inj some).2]

end Markup

namespace Rereadable

variable {options : Options} {start : Nat}

/-- A new style with renamed rules is read without faults. -/
theorem bodyText_rules (asked : Rereadable options content start document) {rules : Text}
    (renamed : Renamed options
      (rewriting options content (Stripped.ofDocument content start) document).rules rules) :
    BodyText "style" rules [] := by
  have named : isName "style".toList = true := by decide
  have empty : BodyText "style" [] [] := ⟨trivial, nofun, named, isWordChar_of_isName named⟩
  have filled := empty.insert plainName_style (quiet_of_absent asked.rules) renderedRules_ends
  rw [List.append_nil] at filled
  exact filled.twins plainName_style renamed.twins

/-- A new style after renaming is a new style of renamed rules. -/
theorem exists_of_renamed_styleParts {exchange : Exchange} {tail : Text}
    (renamed : Renamed options (newText exchange styleParts) tail) :
    ∃ rules, tail = styleLead ++ (rules ++ styleTail) ∧ Renamed options exchange.rules rules := by
  have split : newText exchange styleParts = styleLead ++ (exchange.rules ++ (styleTail ++ [])) := rfl
  rw [split, List.append_nil] at renamed
  obtain ⟨lead, _, rfl, renamedLead, renamed⟩ := renamed.append
  obtain ⟨rules, tail, rfl, renamedRules, renamedTail⟩ := renamed.append
  rw [renamedLead.eq_of_no_colon (by decide), renamedTail.eq_of_no_colon (by decide)]
  exact ⟨rules, rfl, renamedRules⟩

/-- **The processed document is read without faults.** -/
theorem exists_read? (asked : Rereadable options content start document)
    (readable : Readable content (Stripped.ofDocument content start) document)
    (done : read? (Stripped.ofDocument content start).text = .ok document) :
    ∃ again, read? (Stripped.ofDocument (renameMarkers options
      (documentPatch options content (Stripped.ofDocument content start) document).output)
        start).text = .ok again := by
  obtain ⟨parts, parted, more, isMore, lead, edited, base, whole, cutOut⟩ :=
    asked.exists_rewrites readable done
  have isOut : (Stripped.ofDocument (renameMarkers options
      (documentPatch options content (Stripped.ofDocument content start) document).output)
        start).text = strip (underscored options.names (lead.reverse ++ []) edited) := by
    -- Renaming keeps the length of what stands in front of the part that is read.
    have place : start = Text.bytes (underscored options.names [] lead) := by
      rw [bytes_underscored, base]
    rw [whole, renameMarkers_eq, underscored_append, place]
    exact Stripped.text_ofDocument_append _ _
  have renamed : Renamed options (strip edited) _ := renamed_strip ⟨lead.reverse ++ [], rfl⟩
  rw [← isOut, cutOut, newText, List.flatMap_append] at renamed
  generalize (Stripped.ofDocument (renameMarkers options
    (documentPatch options content (Stripped.ofDocument content start) document).output)
      start).text = out at renamed ⊢
  obtain ⟨front, tail, rfl, renamedFront, renamedTail⟩ := renamed.append
  have isTail : tail = [] ∨ document.style = none ∧ ∃ rules,
      tail = styleLead ++ (rules ++ styleTail) ∧ BodyText "style" rules [] := by
    rcases isMore with rfl | ⟨noStyle, rfl⟩
    · exact .inl (renamedTail.twins.eq_nil_iff.mpr rfl)
    · obtain ⟨rules, isTail, renamedRules⟩ := exists_of_renamed_styleParts renamedTail
      exact .inr ⟨noStyle, rules, isTail, asked.bodyText_rules renamedRules⟩
  have starts : StartsConstruct tail := by
    rcases isTail with rfl | ⟨-, rules, rfl, -⟩
    · exact startsConstruct_nil
    · exact startsConstruct_cons rfl _
  obtain ⟨-, last, same, ends, alike⟩ := parted.replay (Draft.start (front ++ tail)) front tail
    ⟨rfl, rfl⟩ rfl renamedFront starts
  have top : last.opened = [] := Draft.opened_eq_nil_of_alike alike (Draft.opened_run _)
  refine read?_of_run ?_
  rw [same]
  rcases isTail with rfl | ⟨noStyle, rules, rfl, form⟩
  · rw [Draft.run_of_step_eq_none (Draft.step_eq_none_of_ended top ends)]
    exact alike.clean
  · refine Draft.run_styleLead form top ?_ alike.clean ends
    have unread : last.style.isSome = (Draft.start (Stripped.ofDocument content start).text).run.style.isSome :=
      congrArg Summary.style alike.summary
    rw [← (run_of_read? done).2.2, noStyle] at unread
    exact Option.not_isSome_iff_eq_none.mp (unread ▸ Bool.false_ne_true)

end Rereadable

variable {options : Options} {code : Text} {file file' : Option String}
  {map : Option SourceMap.Encoding}

/-- Without a map, a content was left alone because nothing of it is read. -/
theorem start?_eq_none_of_hoist (done : hoist options content file = .ok ⟨code, none⟩) :
    code = content ∧ (ReadableRange.ofContent content).start? = none := by
  unfold hoist at done
  split at done
  case h_1 begins =>
    obtain ⟨rfl, -⟩ := Hoisted.mk.inj (Except.ok.inj done)
    exact ⟨rfl, begins⟩
  case h_2 =>
    simp only at done
    split at done
    · cases done
    · split at done <;> cases done

/-- A content is refused for no faults if what is read of it is a document. -/
theorem hoist_ne_faults (reads : ∀ start ∈ (ReadableRange.ofContent content).start?, ∃ document,
    read? (Stripped.ofDocument content start).text = .ok document) (faults : List Fault) :
    hoist options content file ≠ .error (.faults faults) := by
  unfold hoist
  cases begins : (ReadableRange.ofContent content).start? with
  | none => exact nofun
  | some start =>
    obtain ⟨document, read⟩ := reads start begins
    simp only [read]
    split <;> exact nofun

/-- A content in which a fault is found is refused. -/
theorem exists_refused {start : Nat} {fault : Fault}
    (begins : (ReadableRange.ofContent content).start? = some start)
    (found : fault ∈ (Draft.start (Stripped.ofDocument content start).text).run.faults)
    (options : Options) (file : Option String) :
    ∃ faults, hoist options content file = .error (.faults faults) ∧
      ∃ noted ∈ faults, noted.cause = fault.cause := by
  unfold hoist
  simp only [begins, read?_of_mem_faults found]
  exact ⟨_, rfl, _, List.mem_map_of_mem (List.mem_reverse.mpr found), rfl⟩

/-- **A processed document is processed again.** If it can be read again, and if what is read of it
starts where what was read of the document started, it is read as a document, which has one style at
most, and no faults are found. -/
theorem hoist_again (small : content.bytes ≤ Offset.limit)
    (done : hoist options content file = .ok ⟨code, map⟩)
    (asked : ∀ start document, (ReadableRange.ofContent content).start? = some start →
      read? (Stripped.ofDocument content start).text = .ok document →
        Rereadable options content start document)
    (stays : ∀ start ∈ (ReadableRange.ofContent code).start?,
      (ReadableRange.ofContent content).start? = some start) :
    (∀ start ∈ (ReadableRange.ofContent code).start?, ∃ again,
      read? (Stripped.ofDocument code start).text = .ok again) ∧
    ∀ file' faults, hoist options code file' ≠ .error (.faults faults) := by
  have reads : ∀ start ∈ (ReadableRange.ofContent code).start?, ∃ again,
      read? (Stripped.ofDocument code start).text = .ok again := by
    intro place isPlace
    cases map with
    | none =>
      obtain ⟨rfl, unread⟩ := start?_eq_none_of_hoist done
      rw [unread] at isPlace
      cases isPlace
    | some map =>
      obtain ⟨start, document, begins, read, readable, rfl, -⟩ := exists_of_hoist small done
      obtain rfl : start = place := Option.some.inj (begins.symm.trans (stays place isPlace))
      exact (asked start document begins read).exists_read? readable read
  exact ⟨reads, fun _ => hoist_ne_faults reads⟩

/-- The document that holds a component with one class. -/
def cardDocument : Document :=
  ⟨none, none, none, ⟨[.element ⟨0, 12⟩ (.component "A" true) cardTag.attributes []], ⟨0, 12⟩⟩⟩

/-- The rule for the class. -/
def cardRule : GlobalRule := ⟨none, ['.', 'd', 'e', 'e', 'p', '_', 'b'], ['b']⟩

/-- The rule for the class of the component. -/
theorem renderedRules_card :
    renderedRules ⟨false, false⟩ card ⟨0, [], card⟩ cardDocument = GlobalRule.renderAll [cardRule] := by
  rfl

/-- The component, processed. -/
def hoistedCard : Text :=
  ['<', 'A', ' ', 'c', 'l', 'a', 's', 's', '=', 'd', 'e', 'e', 'p', '_', 'b', '/', '>'] ++
    (styleLead ++ (GlobalRule.renderAll [cardRule] ++ styleTail))

/-- The component can be read again. -/
theorem rereadable_card : Rereadable ⟨false, false⟩ card 0 cardDocument where
  names := keepsApart_of_names_eq_nil rfl _
  rules := by
    have isText : GlobalRule.renderAll [cardRule] =
        " :global(.deep_b) \x7b @apply b; \x7d".toList := by rfl
    have isLeft : strip " :global(.deep_b) \x7b @apply b; \x7d".toList =
        [' ', ':', 'g', 'l', 'o', 'b', 'a', 'l', '(', '.', 'd', 'e', 'e', 'p', '_', 'b', ')', ' ',
          '\x7b', ' ', '\x7d'] := by cbv
    rw [Stripped.ofDocument_eq rfl, renderedRules_card, isText, isLeft]
    intro inRules
    exact absurd (inRules.subset List.mem_cons_self) (by decide)
  own _ some := absurd rfl some
  appended _ _ := by
    rw [Stripped.ofDocument_eq rfl, Stripped.ofDocument_eq rfl]
    rfl

/-- A component with one class is processed again. -/
theorem hoist_again_card :
    Text.bytes card ≤ Offset.limit ∧
      ∃ map, hoist ⟨false, false⟩ card none = .ok ⟨hoistedCard, some map⟩ ∧
        (∃ again, read? (Stripped.ofDocument hoistedCard 0).text = .ok again) ∧
          ∀ faults, hoist ⟨false, false⟩ hoistedCard none ≠ .error (.faults faults) := by
  have small : Text.bytes card ≤ Offset.limit := by decide
  have begins : (ReadableRange.ofContent card).start? = some 0 := by rfl
  have begins' : (ReadableRange.ofContent hoistedCard).start? = some 0 := by rfl
  have done : ∃ map, hoist ⟨false, false⟩ card none = .ok ⟨hoistedCard, some map⟩ :=
    exists_hoist_of_read? small begins rfl read?_card _ _
  obtain ⟨map, done⟩ := done
  obtain ⟨reads, noFaults⟩ := hoist_again small done
    (fun start document begun read => by
      obtain rfl : 0 = start := Option.some.inj (begins.symm.trans begun)
      rw [Stripped.ofDocument_eq rfl] at read
      obtain rfl : cardDocument = document := Except.ok.inj (read?_card.symm.trans read)
      exact rereadable_card)
    fun start begun => begins.trans (begins'.symm.trans begun)
  exact ⟨small, map, done, reads 0 begins', noFaults none⟩

/-- A style that closes itself. -/
def closedStyle : Text := ['<', 's', 't', 'y', 'l', 'e', '/', '>']

/-- What has been read of a text once a style that closes itself, at its start, has been. -/
def Markup.Draft.behindStyle (rest : Text) : Draft :=
  ⟨⟨8, rest⟩, [], [], none, none, some ⟨⟨0, 8⟩, ⟨8, 8⟩, "", []⟩, []⟩

/-- A style that closes itself is read at once. -/
theorem Markup.Draft.step_closedStyle (rest : Text) :
    (start (closedStyle ++ rest)).step = some (behindStyle rest) := by
  have named : Cursor.tagName? ⟨0, closedStyle ++ rest⟩ = some "style" := by rfl
  have opened : openTag ⟨0, closedStyle ++ rest⟩ =
      ⟨some ⟨0, "style", [], true⟩, [], ⟨8, rest⟩⟩ := by
    have none : attribute? (Cursor.bump (Cursor.bump ⟨0, closedStyle ++ rest⟩)) = none := by rfl
    have closes : (Cursor.bump (Cursor.bump ⟨0, closedStyle ++ rest⟩)).token.kind = .selfClose := by
      rfl
    unfold openTag
    simp only [named, attributes_of_attribute?_eq_none none, closes]
    rfl
  have opens : (start (closedStyle ++ rest)).cursor.token.kind = .tagOpen := by rfl
  have starts : StartsConstruct (start (closedStyle ++ rest)).cursor.rest :=
    startsConstruct_cons rfl _
  rw [step_of_top starts rfl (opens ▸ nofun), readTop_of_style opens named]
  unfold readStyle rawElement
  rw [show (start (closedStyle ++ rest)).cursor = ⟨0, closedStyle ++ rest⟩ from rfl, opened]
  rfl

/-- A style that closes itself, and a marked class. -/
def bareStyle : Text := closedStyle ++ ['g', 'l', ':', 'x']

/-- The document it holds. -/
def bareStyleDocument : Document :=
  ⟨none, none, some ⟨⟨0, 8⟩, ⟨8, 8⟩, "", []⟩, ⟨[.text ⟨8, 12⟩ "gl:x"], ⟨0, 12⟩⟩⟩

/-- The style and the text behind it are read. -/
theorem read?_bareStyle : read? bareStyle = .ok bareStyleDocument := by
  have stepped : (Draft.behindStyle ['g', 'l', ':', 'x']).step =
      some ((Draft.behindStyle ['g', 'l', ':', 'x']).readText ['g', 'l', ':', 'x'] []) := by rfl
  unfold read? Markup.read
  rw [bareStyle, Draft.run_of_step (Draft.step_closedStyle _), Draft.run_of_step stepped,
    Draft.run_of_step_eq_none (by rfl)]
  rfl

/-- The rule for the marked class. -/
def bareStyleRule : GlobalRule := ⟨none, ['.', 'g', 'l', '_', 'x'], ['x']⟩

/-- The rule for the marked class. -/
theorem renderedRules_bareStyle :
    renderedRules ⟨false, true⟩ bareStyle ⟨0, [], bareStyle⟩ bareStyleDocument =
      GlobalRule.renderAll [bareStyleRule] := by
  have alone : Patch.output ⟨bareStyle, [], [], []⟩ = bareStyle := by rfl
  have isRule : documentRules ⟨false, true⟩ [] bareStyle = [bareStyleRule] := by cbv
  show GlobalRule.renderAll (documentRules ⟨false, true⟩ [] (Patch.output ⟨bareStyle, [], [], []⟩)) =
    GlobalRule.renderAll [bareStyleRule]
  rw [alone, isRule]

/-- The text, processed. -/
def hoistedBareStyle : Text :=
  "<style/>gl_x<style> :global(.gl_x) \x7b @apply x; \x7d</style>".toList

/-- The text is processed to the style that closes itself, the renamed class and a new style. -/
theorem renameMarkers_bareStyle :
    renameMarkers ⟨false, true⟩
      (documentPatch ⟨false, true⟩ bareStyle ⟨0, [], bareStyle⟩ bareStyleDocument).output =
        hoistedBareStyle := by
  have output : (documentPatch ⟨false, true⟩ bareStyle ⟨0, [], bareStyle⟩ bareStyleDocument).output =
      bareStyle ++ (styleLead ++ (GlobalRule.renderAll [bareStyleRule] ++ styleTail)) := by
    unfold documentPatch
    rw [renderedRules_bareStyle]
    rfl
  rw [output, renameMarkers_eq]
  decide

/-- A new style behind one that closes itself is a second one. -/
theorem hoist_bareStyle :
    ∃ code map faults, hoist ⟨false, true⟩ bareStyle none = .ok ⟨code, some map⟩ ∧
      hoist ⟨false, true⟩ code none = .error (.faults faults) ∧
        ∃ fault ∈ faults, fault.cause = .duplicate "style" := by
  have begins : (ReadableRange.ofContent bareStyle).start? = some 0 := by rfl
  obtain ⟨map, done⟩ :=
    exists_hoist_of_read? (by decide) begins rfl read?_bareStyle ⟨false, true⟩ none
  rw [renameMarkers_bareStyle] at done
  have begins' : (ReadableRange.ofContent hoistedBareStyle).start? = some 0 := by rfl
  have isText : (Stripped.ofDocument hoistedBareStyle 0).text = closedStyle ++
      (['g', 'l', '_', 'x'] ++ (styleLead ++ " :global(.gl_x) \x7b \x7d</style>".toList)) := by cbv
  have stepped (rest : Text) : (Draft.behindStyle (['g', 'l', '_', 'x'] ++ (styleLead ++ rest))).step =
      some ((Draft.behindStyle (['g', 'l', '_', 'x'] ++ (styleLead ++ rest))).readText
        ['g', 'l', '_', 'x'] (styleLead ++ rest)) := by rfl
  obtain ⟨fault, member, isSecond⟩ :
      ∃ fault ∈ (Draft.start (Stripped.ofDocument hoistedBareStyle 0).text).run.faults,
        fault.cause = .duplicate "style" := by
    rw [isText, Draft.run_of_step (Draft.step_closedStyle _), Draft.run_of_step (stepped _)]
    exact Draft.run_styleLead_again rfl rfl rfl
  obtain ⟨faults, refused, noted, isNoted, same⟩ := exists_refused begins' member ⟨false, true⟩ none
  exact ⟨_, map, faults, done, refused, noted, isNoted, same.trans isSecond⟩

/-- A document is processed, and what comes of it is read from a place on and refused for a cause. -/
def RefusedAgain (options : Options) (content : Text) (start place : Nat) (document : Document)
    (cause : Cause) : Prop :=
  (ReadableRange.ofContent content).start? = some start ∧
    read? (Stripped.ofDocument content start).text = .ok document ∧
    ∃ code map faults, hoist options content none = .ok ⟨code, some map⟩ ∧
      (ReadableRange.ofContent code).start? = some place ∧
      hoist options code none = .error (.faults faults) ∧ ∃ fault ∈ faults, fault.cause = cause

/-- To see that a document is refused again, it is enough to read what comes of it for some steps. -/
theorem refusedAgain_of_advance {start place : Nat} {cause : Cause} (count : Nat)
    (small : Text.bytes content ≤ Offset.limit)
    (begins : (ReadableRange.ofContent content).start? = some start)
    (read : read? (Stripped.ofDocument content start).text = .ok document)
    (isCode : underscored options.names []
      (documentPatch options content (Stripped.ofDocument content start) document).output = code)
    (again : (ReadableRange.ofContent code).start? = some place)
    (found : cause ∈ ((Draft.start (Stripped.ofDocument code place).text).advance count).faults.map
      Fault.cause) :
    RefusedAgain options content start place document cause := by
  obtain ⟨fault, noted, rfl⟩ := List.mem_map.mp found
  obtain ⟨map, done⟩ := exists_hoist small begins read options none
  rw [renameMarkers_eq, isCode] at done
  obtain ⟨faults, refused, isFault⟩ :=
    exists_refused again (Draft.faults_advance_subset _ _ noted) options none
  exact ⟨begins, read, code, map, faults, done, again, refused, isFault⟩

/-- Two elements, open together, whose names are renamed alike. -/
def sameNames : Text :=
  ['<', 'r', 't', 'l', ':', '>', '<', 'r', 't', 'l', '_', '>', '<', '/', 'r', 't', 'l', ':', '>']

/-- Under one name, the closing tag of the outer element closes the inner one. -/
theorem hoist_sameNames : ∃ document,
    (KeepsApart ⟨true, false⟩ (Stripped.ofDocument sameNames 0).text →
      Rereadable ⟨true, false⟩ sameNames 0 document) ∧
      RefusedAgain ⟨true, false⟩ sameNames 0 0 document (.unclosedTag "rtl_") := by
  have read : read? (Stripped.ofDocument sameNames 0).text = .ok _ :=
    read?_eq_documentAfter 8 (by decide +kernel) (by decide +kernel)
  have noRules : renderedRules ⟨true, false⟩ sameNames (Stripped.ofDocument sameNames 0)
      (documentAfter 8 (Stripped.ofDocument sameNames 0).text) = [] := by decide +kernel
  refine ⟨_, fun names => ⟨names, ?_, absurd noRules, absurd noRules⟩,
    refusedAgain_of_advance 8 (by decide) rfl read rfl (by decide +kernel) (by decide +kernel)⟩
  rw [noRules]
  decide +kernel

/-- A class that ends the style its rule is put in. -/
def closingClass : Text :=
  ['<', 'A', ' ', 'c', 'l', 'a', 's', 's', '=', '"', 'a', 'b', '\x7d', '<', '/', 's', 't', 'y', 'l',
    'e', '"', '/', '>']

/-- The closing tag in the rule is that of the new style. -/
theorem hoist_closingClass : ∃ document,
    (¬ closingLead "style" <:+: strip (renderedRules ⟨false, false⟩ closingClass
        (Stripped.ofDocument closingClass 0) document) →
      Rereadable ⟨false, false⟩ closingClass 0 document) ∧
      RefusedAgain ⟨false, false⟩ closingClass 0 0 document (.unexpectedClosingTag "style") := by
  have read : read? (Stripped.ofDocument closingClass 0).text = .ok
      (documentAfter 2 (Stripped.ofDocument closingClass 0).text) :=
    read?_eq_documentAfter 2 (by decide +kernel) (by decide +kernel)
  refine ⟨_, fun rules => ⟨keepsApart_of_names_eq_nil rfl _, rules, ?_, fun _ _ => ?_⟩,
    refusedAgain_of_advance 8 (by decide) rfl read rfl (by decide +kernel) (by decide +kernel)⟩
  · exact fun _ some => absurd (Option.isNone_iff_eq_none.mp (by decide +kernel)) some
  · decide +kernel

/-- A component, and a directive that is open at the end. -/
def openDirective : Text :=
  ['<', 'A', ' ', 'c', 'l', 'a', 's', 's', '=', 'a', '/', '>', '@', 'a', 'p', 'p', 'l', 'y', ' ', 'x']

/-- The directive takes in the opening tag of the new style. -/
theorem hoist_openDirective : ∃ document,
    ((Stripped.ofDocument (openDirective ++ emptyStyle) 0).text =
        (Stripped.ofDocument openDirective 0).text ++ emptyStyle →
      Rereadable ⟨false, false⟩ openDirective 0 document) ∧
      RefusedAgain ⟨false, false⟩ openDirective 0 0 document (.unexpectedClosingTag "style") := by
  have read : read? (Stripped.ofDocument openDirective 0).text = .ok
      (documentAfter 2 (Stripped.ofDocument openDirective 0).text) :=
    read?_eq_documentAfter 2 (by decide +kernel) (by decide +kernel)
  refine ⟨_, fun appended => ⟨keepsApart_of_names_eq_nil rfl _, ?_, ?_, fun _ _ => appended⟩,
    refusedAgain_of_advance 8 (by decide) rfl read rfl (by decide +kernel) (by decide +kernel)⟩
  · decide +kernel
  · exact fun _ some => absurd (Option.isNone_iff_eq_none.mp (by decide +kernel)) some

/-- Two scripts, and a component whose class holds the declaration of TypeScript in a directive. -/
def cutDeclaration : Text :=
  let script : Text :=
    ['<', 's', 'c', 'r', 'i', 'p', 't', '>', '<', '/', 's', 'c', 'r', 'i', 'p', 't', '>']
  script ++ script ++ ['<', 'A', ' ', 'c', 'l', 'a', 's', 's', '=', '"', 'a', '@', 'a', 'p', 'p', 'l',
    'y', ' ', 'l', 'a', 'n', 'g', '=', '\'', 't', 's', '\'', '\x7d', 'b', '"', '/', '>']

/-- Without the declaration the scripts are read as well, and the second is one too many. -/
theorem hoist_cutDeclaration : ∃ document,
    Rereadable ⟨false, false⟩ cutDeclaration 34 document ∧
      RefusedAgain ⟨false, false⟩ cutDeclaration 34 0 document (.duplicate "script") := by
  have read : read? (Stripped.ofDocument cutDeclaration 34).text = .ok
      (documentAfter 2 (Stripped.ofDocument cutDeclaration 34).text) :=
    read?_eq_documentAfter 2 (by decide +kernel) (by decide +kernel)
  refine ⟨_, ⟨keepsApart_of_names_eq_nil rfl _, ?_, ?_, fun _ _ => ?_⟩,
    refusedAgain_of_advance 4 (by decide) (by decide +kernel) read rfl (by decide +kernel)
      (by decide +kernel)⟩
  · decide +kernel
  · exact fun _ some => absurd (Option.isNone_iff_eq_none.mp (by decide +kernel)) some
  · decide +kernel

end ClassHoist
