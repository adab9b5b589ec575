import ClassHoist.Proofs.FeedContentAgreement
import ClassHoist.Proofs.NodeNesting
import ClassHoist.Proofs.ReadRun

/-! # Text as it stands in the source

Every span of a document lies in the source, between two characters (`Span.Fits`), and every text in
it is the text of the source at its span (`Span.Shows`). That is said here of everything a document
is made of (`Document.Verbatim`), and shown of what is read at one place: attributes, tags, and the
contents of elements without markup inside.
-/

namespace ClassHoist

/-- The span lies in the source, in order and between characters. -/
structure Span.Fits (source : Text) (span : Span) : Prop where
  ordered : span.start ≤ span.stop
  upTo : span.stop ≤ source.bytes
  start : source.isBoundary span.start = true
  stop : source.isBoundary span.stop = true

/-- The text is that of the source at the span. -/
structure Span.Shows (source : Text) (span : Span) (text : String) : Prop where
  fits : span.Fits source
  same : Markup.cut source span = some text.toList

namespace Markup

/-- An expression is the text of the source at its code span, which lies in its span. -/
structure Embedded.Verbatim (source : Text) (embedded : Embedded) : Prop where
  whole : embedded.span.Fits source
  code : embedded.codeSpan.Shows source embedded.code
  front : embedded.span.start ≤ embedded.codeSpan.start
  back : embedded.codeSpan.stop ≤ embedded.span.stop

/-- A part of a value is as it stands in the source. -/
def ValuePart.Verbatim (source : Text) : ValuePart → Prop
  | .text literal => literal.span.Shows source literal.raw
  | .expression embedded => embedded.Verbatim source

/-- A value is as it stands in the source. -/
def Value.Verbatim (source : Text) : Value → Prop
  | .absent => True
  | .text literal => literal.span.Shows source literal.raw
  | .expression embedded => embedded.Verbatim source
  | .mixed parts => ∀ part ∈ parts, part.Verbatim source

/-- An attribute is as it stands in the source. -/
def Attribute.Verbatim (source : Text) : Attribute → Prop
  | .named span _ value => span.Fits source ∧ value.Verbatim source
  | .spread span _ => span.Fits source
  | .shorthand span _ => span.Fits source
  | .attach span _ => span.Fits source

/-- A node is as it stands in the source; the nodes inside it are left out. -/
def Node.Verbatim (source : Text) : Node → Prop
  | .text span data => span.Shows source data
  | .comment span data => span.Shows source ("<!--" ++ data ++ "-->")
  | .expression embedded => embedded.Verbatim source
  | .tag _ embedded => embedded.Verbatim source
  | .element span _ attributes _ => span.Fits source ∧ ∀ attr ∈ attributes, attr.Verbatim source
  | .block span _ header body branches =>
    span.Fits source ∧ header.Verbatim source ∧ body.span.Fits source ∧
      ∀ branch ∈ branches, branch.span.Fits source ∧ branch.body.span.Fits source

/-- A script is as it stands in the source. -/
structure Script.Verbatim (source : Text) (script : Script) : Prop where
  whole : script.span.Fits source
  content : script.contentSpan.Shows source script.content
  attributes : ∀ attr ∈ script.attributes, attr.Verbatim source

/-- A style is as it stands in the source. -/
structure Style.Verbatim (source : Text) (style : Style) : Prop where
  whole : style.span.Fits source
  content : style.contentSpan.Shows source style.content
  attributes : ∀ attr ∈ style.attributes, attr.Verbatim source

/-- Everything in a document is as it stands in the source. -/
structure Document.Verbatim (source : Text) (document : Document) : Prop where
  moduleScript : ∀ script ∈ document.moduleScript, script.Verbatim source
  instanceScript : ∀ script ∈ document.instanceScript, script.Verbatim source
  style : ∀ style ∈ document.style, style.Verbatim source
  template : document.template.span.Fits source
  nodes : ∀ node ∈ nodesPreorder document.template.nodes, node.Verbatim source

variable {source text : Text} {cursor last : Cursor} {span : Span} {start stop : Nat}

/-- A span between two boundaries in order fits. -/
theorem fits_of_boundaries (first : source.isBoundary start = true)
    (second : source.isBoundary stop = true) (ordered : start ≤ stop) :
    Span.Fits source ⟨start, stop⟩ :=
  ⟨ordered, Text.bytes_le_of_isBoundary second, first, second⟩

/-- The span of a part that stands in the source fits. -/
theorem fits_of_stands (stands : source.Stands start stop text) : Span.Fits source ⟨start, stop⟩ := by
  apply fits_of_boundaries stands.isBoundary_start stands.isBoundary_stop
  obtain ⟨before, after, -, -, stopIs⟩ := stands
  omega

/-- A part that stands in the source shows at its span. -/
theorem shows_of_stands (stands : source.Stands start stop text) :
    Span.Shows source ⟨start, stop⟩ (String.ofList text) := by
  refine ⟨fits_of_stands stands, ?_⟩
  rw [String.toList_ofList]
  exact stands.slice?_eq

namespace Cursor

/-- The span between a place and a later one fits. -/
theorem fits_between (within : cursor.In source) (reach : cursor.Reaches last) :
    Span.Fits source ⟨cursor.offset, last.offset⟩ :=
  fits_of_boundaries within.isBoundary (within.trans reach).isBoundary reach.offset_le

/-- The empty span at a place fits. -/
theorem fits_empty (within : cursor.In source) : Span.Fits source (.empty cursor.offset) :=
  fits_between within (.refl cursor)

/-- The span of the next token fits. -/
theorem fits_token (within : cursor.In source) : cursor.token.span.Fits source :=
  fits_of_stands ((token_holds cursor).stands_in within)

/-- What starts with the first token. -/
theorem fits_from (within : cursor.In source) (reach : cursor.bump.Reaches last) :
    Span.Fits source ⟨cursor.token.span.start, last.offset⟩ := by
  have token := fits_token within
  have behind : cursor.bump.offset ≤ last.offset := reach.offset_le
  rw [offset_bump] at behind
  exact fits_of_boundaries token.start
    (within.trans ((reaches_bump cursor).trans reach)).isBoundary (token.ordered.trans behind)

/-- A token that is missing is reported at a span that fits. -/
theorem fits_missing (within : cursor.In source) (kind : TokenKind) :
    (cursor.missing kind).span.Fits source := by
  unfold missing
  simp only
  split <;> exact fits_token within

/-- The fault of a token that is not found fits. -/
theorem fits_expect (within : cursor.In source) (kind : TokenKind) :
    ∀ fault ∈ (cursor.expect kind).faults, fault.span.Fits source := by
  intro fault member
  unfold expect at member
  split at member
  · cases member
  · rw [List.mem_singleton.mp member]
    exact fits_missing within kind

end Cursor

/-- A text that is trimmed stays within the text around it. -/
theorem trimmed_between (start : Nat) (text : Text) :
    start ≤ (trimmed start text).1.start ∧
      (trimmed start text).1.stop ≤ start + Text.bytes text := by
  obtain ⟨after, isLeft⟩ := exists_trimLeft_eq text
  have counts := congrArg Text.bytes (takeWhile_append_trimLeft text)
  rw [isLeft, Text.bytes_append, Text.bytes_append] at counts
  simp only [trimmed]
  omega

/-- An expression is verbatim whose code is the text between two offsets, without white space. -/
theorem embedded_verbatim (stands : source.Stands start (start + Text.bytes text) text)
    (whole : span.Fits source) (front : span.start ≤ start) (back : start + Text.bytes text ≤ span.stop) :
    Embedded.Verbatim source
      ⟨span, (trimmed start text).1, String.ofList (trimmed start text).2⟩ := by
  obtain ⟨from_, upTo⟩ := trimmed_between start text
  exact ⟨whole, shows_of_stands (trimmed_stands stands), front.trans from_, upTo.trans back⟩

variable {braced : Braced}

/-- The span of a construct in braces fits. -/
theorem fits_braced (within : cursor.In source) (found : cursor.braced? = some braced) :
    braced.span.Fits source :=
  fits_of_stands ((braced_holds found).stands_in within)

/-- A construct in braces stops no earlier than it starts. -/
theorem start_le_next (within : cursor.In source) (found : cursor.braced? = some braced) :
    braced.span.start ≤ braced.next.offset := by
  have ordered := (fits_braced within found).ordered
  obtain ⟨-, isSpan, -, -⟩ := Cursor.braced?_eq_some found
  rw [isSpan] at ordered ⊢
  exact ordered

/-- The text between braces lies in the span of the braces. -/
theorem inner_between (found : cursor.braced? = some braced) :
    braced.span.start ≤ braced.innerStart ∧
      braced.innerStart + Text.bytes braced.inner ≤ braced.span.stop := by
  obtain ⟨-, isSpan, innerIs, stop⟩ := Cursor.braced?_eq_some found
  have token : cursor.token.span.start ≤ cursor.token.span.stop := Nat.le_add_right _ _
  rw [isSpan, innerIs, stop, Cursor.offset_bump]
  simp only
  omega

/-- The expression in braces is as it stands in the source. -/
theorem embedded_braced_verbatim (within : cursor.In source)
    (found : cursor.braced? = some braced) : braced.embedded.Verbatim source := by
  obtain ⟨front, back⟩ := inner_between found
  exact embedded_verbatim (inner_stands within found) (fits_braced within found) front back

/-- What follows the keyword in braces is as it stands in the source. -/
theorem withKeyword_verbatim (within : cursor.In source) (found : cursor.braced? = some braced) :
    braced.withKeyword.2.Verbatim source := by
  obtain ⟨front, back⟩ := inner_between found
  have stands := afterKeyword_stands (inner_stands within found)
  obtain ⟨before, after, whole, startIs, stopIs⟩ := stands
  refine embedded_verbatim ⟨before, after, whole, startIs, rfl⟩ (fits_braced within found) ?_ ?_
  · omega
  · omega

/-- What has been read at a place is good, and its faults show in the source. -/
structure Reading.Sound {Content : Type} (source : Text) (good : Content → Prop)
    (reading : Reading Content) : Prop where
  value : good reading.value
  faults : ∀ fault ∈ reading.faults, fault.span.Fits source

/-- Nothing has been read, with a fault. -/
theorem sound_fault {Content : Type} {good : Content → Prop} {fault : Fault} {next : Cursor}
    (fits : fault.span.Fits source) :
    Reading.Sound source (fun value : Option Content => ∀ content ∈ value, good content)
      ⟨none, [fault], next⟩ := by
  refine ⟨nofun, fun other member => ?_⟩
  rw [List.mem_singleton.mp member]
  exact fits

/-- A content that is good and comes without faults is sound. -/
theorem sound_some {Content : Type} {good : Content → Prop} {content : Content} {next : Cursor}
    (isGood : good content) :
    Reading.Sound source (fun value => ∀ content ∈ value, good content)
      ⟨some content, [], next⟩ :=
  ⟨fun _ isSome => Option.some.inj isSome ▸ isGood, nofun⟩

/-- The literal parts of a value are as they stand in the source. -/
theorem literalPart_verbatim (stands : source.Stands start (start + Text.bytes text) text) :
    ∀ part ∈ literalPart start text, part.Verbatim source := by
  intro part member
  unfold literalPart at member
  split at member
  · cases member
  · rw [List.mem_singleton.mp member]
    exact shows_of_stands stands

/-- The place behind code in braces is reached from the opening brace. -/
theorem reaches_brace {inside inner after : Text} (brace : cursor.rest = '\x7b' :: inside)
    (closed : Expression.closing? '\x7d' inside = some (inner, after)) :
    cursor.Reaches ⟨cursor.offset + 1 + inner.bytes + 1, after⟩ := by
  obtain ⟨split, next⟩ := Cursor.past_brace brace closed
  exact next ▸ Cursor.reaches_past split

/-- The parts of a quoted value are as they stand in the source. -/
theorem quotedParts_verbatim {quote : Char} {parts : List ValuePart} {next : Cursor}
    (within : cursor.In source)
    (done : quotedParts quote cursor.offset cursor.rest = .ok (parts, next)) :
    ∀ part ∈ parts, part.Verbatim source := by
  induction counted : cursor.rest.length using Nat.strong_induction_on
    generalizing cursor parts next with
  | _ count ih =>
    have split : cursor.rest.takeWhile (isLiteralChar quote) ++
        cursor.rest.dropWhile (isLiteralChar quote) = cursor.rest :=
      List.takeWhile_append_dropWhile
    rw [quotedParts_eq] at done
    generalize cursor.rest.takeWhile (isLiteralChar quote) = literal at split done
    have stands := within.stands split.symm
    cases left : cursor.rest.dropWhile (isLiteralChar quote) with
    | nil =>
      rw [left] at done
      cases done
    | cons c tail =>
      rw [left] at split done
      by_cases closes : c = quote
      · simp only [closes, ↓reduceIte, Except.ok.injEq, Prod.mk.injEq] at done
        obtain ⟨rfl, -⟩ := done
        exact literalPart_verbatim stands
      · obtain rfl := eq_brace_of_dropWhile left closes
        have place : (cursor.past literal ('\x7b' :: tail)).In source :=
          within.trans (Cursor.reaches_past split.symm)
        cases closed : Expression.closing? '\x7d' tail with
        | none =>
          simp only [closes, ↓reduceIte, closed] at done
          cases done
        | some cut =>
          obtain ⟨inner, after⟩ := cut
          have reach : (cursor.past literal ('\x7b' :: tail)).Reaches _ := reaches_brace rfl closed
          have shorter : after.length < count :=
            counted ▸ length_afterExpression_lt left closed
          simp only [closes, ↓reduceIte, closed] at done
          cases deeper : quotedParts quote (cursor.offset + Text.bytes literal + 1 + inner.bytes + 1)
              after with
          | error missing =>
            rw [deeper] at done
            cases done
          | ok read =>
            rw [deeper] at done
            obtain ⟨rfl, -⟩ := Prod.mk.inj (Except.ok.inj done)
            intro part member
            rcases List.mem_append.mp member with inLiteral | member
            · exact literalPart_verbatim stands part inLiteral
            · rcases List.mem_cons.mp member with rfl | later
              · exact ⟨Cursor.fits_between place reach,
                  shows_of_stands (Cursor.stands_brace place rfl closed), Nat.le_succ _,
                  Nat.le_succ _⟩
              · exact ih after.length shorter (place.trans reach) deeper rfl part later

/-- A value is as it stands in the source if its parts are. -/
theorem ofParts_verbatim {parts : List ValuePart} (boundary : source.isBoundary start = true)
    (verbatim : ∀ part ∈ parts, part.Verbatim source) : (Value.ofParts start parts).Verbatim source := by
  match parts with
  | [] =>
    obtain ⟨before, after, whole, startIs⟩ := Text.isBoundary_iff.mp boundary
    exact shows_of_stands ⟨before, after, whole, startIs, rfl⟩
  | [.text literal] => exact verbatim _ List.mem_cons_self
  | [.expression embedded] => exact verbatim
  | first :: second :: rest => cases first <;> exact verbatim

/-- A quoted value is as it stands in the source. -/
theorem quotedValue_sound (within : cursor.In source) :
    (quotedValue cursor).Sound source fun value => ∀ content ∈ value, content.Verbatim source := by
  have inside : cursor.bump.In source := within.trans (Cursor.reaches_bump cursor)
  unfold quotedValue
  simp only
  split
  case h_1 parts next done =>
    exact sound_some (ofParts_verbatim inside.isBoundary (quotedParts_verbatim inside done))
  case h_2 => exact sound_fault (Cursor.fits_empty (within.trans (Cursor.reaches_toEnd cursor)))

/-- An attribute with a name is as it stands in the source. -/
theorem namedAttribute_sound (within : cursor.In source) :
    (namedAttribute cursor).Sound source fun value => ∀ attr ∈ value, attr.Verbatim source := by
  have behind : cursor.bump.In source := within.trans (Cursor.reaches_bump cursor)
  have inside : cursor.bump.bump.In source := behind.trans (Cursor.reaches_bump cursor.bump)
  have reach : cursor.bump.Reaches cursor.bump.bump := Cursor.reaches_bump cursor.bump
  unfold namedAttribute
  simp only
  split
  case isFalse => exact sound_some ⟨Cursor.fits_from within (.refl _), trivial⟩
  case isTrue =>
    have quoted : Reading.Sound source (fun value => ∀ attr ∈ value, attr.Verbatim source)
        ⟨(quotedValue cursor.bump.bump).value.map fun value =>
          Attribute.named ⟨cursor.token.span.start, (quotedValue cursor.bump.bump).next.offset⟩
            (String.ofList cursor.token.text) value,
          (quotedValue cursor.bump.bump).faults, (quotedValue cursor.bump.bump).next⟩ := by
      obtain ⟨verbatim, faults⟩ := quotedValue_sound inside
      refine ⟨fun attr isAttr => ?_, faults⟩
      obtain ⟨value, isValue, rfl⟩ := Option.map_eq_some_iff.mp isAttr
      exact ⟨Cursor.fits_from within (reach.trans (quotedValue_reaches _)), verbatim value isValue⟩
    have unquoted : let run := (unquotedRun (cursor.bump.bump.rest.dropWhile Text.isSeparator)).1
        let start := cursor.bump.bump.token.span.start
        Span.Fits source ⟨cursor.token.span.start, start + Text.bytes run⟩ ∧
          Span.Shows source ⟨start, start + Text.bytes run⟩ (String.ofList run) := by
      have stands := (unquoted_holds cursor.bump.bump rfl).stands_in inside
      have first := Cursor.fits_from within reach
      have token : cursor.bump.bump.offset ≤ cursor.bump.bump.token.span.start := Nat.le_add_right _ _
      refine ⟨fits_of_boundaries first.start stands.isBoundary_stop ?_, shows_of_stands stands⟩
      exact (first.ordered.trans token).trans (Nat.le_add_right _ _)
    split
    case h_1 | h_2 => exact quoted
    case h_3 =>
      split
      case h_1 => exact sound_fault (Cursor.fits_token inside)
      case h_2 braced found =>
        obtain ⟨front, back⟩ := inner_between found
        exact sound_some ⟨Cursor.fits_from within (reach.trans (Cursor.reaches_braced? found)),
          fits_braced inside found, shows_of_stands (inner_stands inside found), front, back⟩
    case h_4 | h_5 => exact sound_some ⟨unquoted.1, unquoted.2⟩
    case h_6 => exact sound_fault (Cursor.fits_token inside)

/-- An attribute in braces is as it stands in the source. -/
theorem bracedAttribute_sound (within : cursor.In source) :
    (bracedAttribute cursor).Sound source fun value => ∀ attr ∈ value, attr.Verbatim source := by
  unfold bracedAttribute
  split
  case h_1 => exact sound_fault (Cursor.fits_token within)
  case h_2 braced found =>
    have fits := fits_braced within found
    apply sound_some
    split <;> exact fits

/-- An attachment is as it stands in the source. -/
theorem attachAttribute_sound (within : cursor.In source) :
    (attachAttribute cursor).Sound source fun value => ∀ attr ∈ value, attr.Verbatim source := by
  unfold attachAttribute
  split
  case h_1 => exact sound_fault (Cursor.fits_token within)
  case h_2 braced found =>
    have fits := fits_braced within found
    simp only
    split
    · exact sound_some fits
    · exact sound_fault fits

/-- Whatever attribute begins at a place is as it stands in the source. -/
theorem attribute?_sound (within : cursor.In source) {reading : Reading (Option Attribute)}
    (read : attribute? cursor = some reading) :
    reading.Sound source fun value => ∀ attr ∈ value, attr.Verbatim source := by
  rcases Cursor.attribute?_cases read with ⟨-, rfl⟩ | ⟨-, rfl⟩ | ⟨-, rfl⟩ | ⟨-, rfl⟩
  · exact namedAttribute_sound within
  · exact bracedAttribute_sound within
  · exact attachAttribute_sound within
  · exact sound_fault (Cursor.fits_token within)

/-- All attributes of a tag are as they stand in the source. -/
theorem attributes_sound (within : cursor.In source) :
    (attributes cursor).Sound source fun value => ∀ attr ∈ value, attr.Verbatim source := by
  fun_induction attributes cursor with
  | case1 cursor => exact ⟨List.forall_mem_nil _, List.forall_mem_nil _⟩
  | case2 cursor reading found less more ih =>
    have first := attribute?_sound within found
    have others := ih (within.trans (attribute?_reaches found))
    constructor
    · intro attr member
      rcases List.mem_append.mp member with here | later
      · exact first.value attr (Option.mem_toList.mp here)
      · exact others.value attr later
    · intro fault member
      rcases List.mem_append.mp member with here | later
      · exact first.faults fault here
      · exact others.faults fault later

/-- What is known of an opening tag in front of a place. -/
structure OpenTag.Sound (source : Text) (next : Cursor) (tag : OpenTag) : Prop where
  boundary : source.isBoundary tag.start = true
  before : tag.start ≤ next.offset
  attributes : ∀ attr ∈ tag.attributes, attr.Verbatim source

/-- An opening tag is as it stands in the source. -/
theorem openTag_sound (within : cursor.In source) :
    (openTag cursor).Sound source fun value =>
      ∀ tag ∈ value, tag.Sound source (openTag cursor).next := by
  have inside : cursor.bump.In source := within.trans (Cursor.reaches_bump cursor)
  have behind := inside.trans (Cursor.reaches_bump cursor.bump)
  have reach := (Cursor.reaches_bump cursor.bump).trans (attributes_reaches cursor.bump.bump)
  obtain ⟨verbatim, faults⟩ := attributes_sound behind
  unfold openTag
  simp only
  split
  case h_1 => exact sound_fault (Cursor.fits_token inside)
  case h_2 name found =>
    split
    case isTrue =>
      have fits := Cursor.fits_from within (reach.trans (Cursor.reaches_bump _))
      refine ⟨fun tag isTag => ?_, faults⟩
      obtain rfl := Option.some.inj isTag
      exact ⟨fits.start, fits.ordered, verbatim⟩
    case isFalse =>
      have fits := Cursor.fits_from within (reach.trans (Cursor.reaches_expect _ .tagEnd))
      constructor
      · intro tag isTag
        obtain rfl := Option.some.inj isTag
        exact ⟨fits.start, fits.ordered, verbatim⟩
      · intro fault member
        rcases List.mem_append.mp member with here | later
        · exact faults fault here
        · exact Cursor.fits_expect (behind.trans (attributes_reaches _)) .tagEnd fault later

/-- The name in an opening tag stands directly behind its bracket. -/
theorem fits_tagName (within : cursor.In source) (opens : cursor.token.kind = .tagOpen)
    {tag : OpenTag} (read : (openTag cursor).value = some tag) :
    Span.Fits source ⟨tag.start, tag.start + 1 + Text.bytes tag.name.toList⟩ := by
  have fits := Cursor.fits_from within (Cursor.reaches_bump cursor.bump)
  have isText : cursor.token.text = ['<'] :=
    lexeme_symbol rfl (congrArg TokenKind.symbol? opens)
  have named := openTag_name read
  simp only [Cursor.tagName?] at named
  split at named
  case isFalse => cases named
  case isTrue both =>
    have isName : tag.name.toList = cursor.bump.token.text := by
      rw [← Option.some.inj named, String.toList_ofList]
    have stop : cursor.bump.bump.offset = tag.start + 1 + Text.bytes tag.name.toList := by
      rw [isName, start_of_openTag read, Cursor.offset_bump, Cursor.token_stop, both.2,
        Cursor.token_stop, isText]
      rfl
    rwa [stop, ← start_of_openTag read] at fits

/-- The faults of a closing tag fit. -/
theorem closingTag_sound (within : cursor.In source) (name : String) :
    ∀ fault ∈ (closingTag cursor name).faults, fault.span.Fits source := by
  intro fault member
  unfold closingTag at member
  simp only at member
  split at member
  · split at member
    · exact Cursor.fits_expect ((within.trans (Cursor.reaches_bump _)).trans (Cursor.reaches_bump _))
        .tagEnd fault member
    · rw [List.mem_singleton.mp member]
      exact Cursor.fits_token within
  · rw [List.mem_singleton.mp member]
    exact Cursor.fits_token within

/-- The content of a raw element is as it stands in the source. -/
theorem rawContent_shows (within : cursor.In source) (name : String) :
    (rawContent cursor name).1.Shows source (String.ofList (rawContent cursor name).2.1) := by
  have split := Text.spanUntil_append (Text.startsWith (closingLead name)) cursor.rest
  exact shows_of_stands (within.stands split.symm)

/-- A run of text is as it stands in the source. -/
theorem run_verbatim (within : cursor.In source) {front back : Text}
    (split : cursor.rest = front ++ back) :
    ∀ node ∈ cursor.run front back, node.inside = [] ∧ node.Verbatim source := by
  intro node member
  unfold Cursor.run at member
  split at member
  · cases member
  · rw [List.mem_singleton.mp member]
    exact ⟨rfl, shows_of_stands (within.stands split)⟩

/-- Text and expressions are as they stand in the source. -/
theorem textContent_sound (within : cursor.In source) (name : String) :
    (textContent name cursor).Sound source fun nodes =>
      ∀ node ∈ nodes, node.inside = [] ∧ node.Verbatim source := by
  fun_induction textContent name cursor with
  | case1 cursor stops found place leading inside left closed =>
    have split := Text.spanUntil_append stops cursor.rest
    have here : place.In source := within.trans (Cursor.reaches_past split.symm)
    have brace : place.rest = ['\x7b'] ++ inside := left
    refine ⟨run_verbatim within split.symm, fun fault member => ?_⟩
    rw [List.mem_singleton.mp member]
    exact Cursor.fits_between here (Cursor.reaches_past brace)
  | case2 cursor stops found place leading inside left inner after closed stop codeSpan code isCode
      less more ih =>
    have split := Text.spanUntil_append stops cursor.rest
    have here : place.In source := within.trans (Cursor.reaches_past split.symm)
    have brace : place.rest = '\x7b' :: inside := left
    have reach := reaches_brace brace closed
    have expression := embedded_verbatim (Cursor.stands_brace here brace closed)
      (Cursor.fits_between here reach) (Nat.le_succ _) (Nat.le_succ _)
    obtain ⟨verbatim, faults⟩ := ih (here.trans reach)
    refine ⟨fun node member => ?_, faults⟩
    rcases List.mem_append.mp member with inRun | member
    · exact run_verbatim within split.symm node inRun
    · rcases List.mem_cons.mp member with rfl | later
      · rw [isCode] at expression
        exact ⟨rfl, expression⟩
      · exact verbatim node later
  | case3 cursor stops found place leading =>
    exact ⟨run_verbatim within (Text.spanUntil_append stops cursor.rest).symm,
      List.forall_mem_nil _⟩

/-- What is known of a script or style. -/
structure RawElement.Verbatim (source : Text) (raw : RawElement) : Prop where
  whole : raw.span.Fits source
  content : raw.contentSpan.Shows source (String.ofList raw.content)
  attributes : ∀ attr ∈ raw.attributes, attr.Verbatim source

/-- A script or style is as it stands in the source. -/
theorem rawElement_sound (within : cursor.In source) :
    (rawElement cursor).Sound source fun value => ∀ raw ∈ value, raw.Verbatim source := by
  have inside : (openTag cursor).next.In source := within.trans (openTag_reaches cursor)
  obtain ⟨tagSound, faults⟩ := openTag_sound within
  unfold rawElement
  simp only
  split
  case h_1 => exact ⟨nofun, faults⟩
  case h_2 tag isTag =>
    have sound := tagSound tag isTag
    split
    case isTrue =>
      refine ⟨fun raw isRaw => ?_, faults⟩
      obtain rfl := Option.some.inj isRaw
      exact ⟨fits_of_boundaries sound.boundary inside.isBoundary sound.before,
        shows_of_stands (inside.stands (List.nil_append _).symm), sound.attributes⟩
    case isFalse =>
      have place := inside.trans (rawContent_reaches (openTag cursor).next tag.name)
      have reach := closingTag_reaches (rawContent (openTag cursor).next tag.name).2.2 tag.name
      have ordered := sound.before.trans ((rawContent_reaches _ tag.name).trans reach).offset_le
      constructor
      · intro raw isRaw
        obtain rfl := Option.some.inj isRaw
        exact ⟨fits_of_boundaries sound.boundary (place.trans reach).isBoundary ordered,
          rawContent_shows inside tag.name, sound.attributes⟩
      · intro fault member
        rcases List.mem_append.mp member with here | later
        · exact faults fault here
        · exact closingTag_sound place tag.name fault later

end Markup

end ClassHoist
