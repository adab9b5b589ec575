import ClassHoist.Proofs.RenamedConstructs

/-! # Reading an element in a renamed document

What an element has for content depends on its name, and in the same way after renaming
(`bodyOf_renamedName`). Classes in the tag of a component can be exchanged for others that fit
(`openTag_exchange`), and so an element that is read without faults is read without faults with its
classes exchanged, and renamed (`readElement_turn`).
-/

namespace ClassHoist.Markup

variable {options : Options} {offset offset' : Nat} {more more' rest : Text} {tag tag' : OpenTag}

/-- Two tags, of which the second has the renamed name of the first, are ahead in the same way. -/
theorem Ahead.of_openTag (begins : Begins .tagOpen [] ['<'] more)
    (begins' : Begins .tagOpen [] ['<'] more')
    (read : (openTag ⟨offset, '<' :: more⟩).value = some tag)
    (read' : (openTag ⟨offset', '<' :: more'⟩).value = some tag')
    (named : tag'.name = renamedName options tag.name) :
    Ahead options ('<' :: more) ('<' :: more') := by
  refine Ahead.of_begins begins begins' (List.cons_ne_nil _ _) fun _ => ⟨offset, offset', ?_⟩
  show Cursor.tagName? ⟨offset', '<' :: more'⟩ = (Cursor.tagName? ⟨offset, '<' :: more⟩).map _
  rw [openTag_name read, openTag_name read', named, Option.map_some]

/-- An opening tag is read wherever what it is renamed to stands. -/
theorem openTag_renamed (begins : Begins .tagOpen [] ['<'] more)
    (read : (openTag ⟨offset, '<' :: more⟩).value = some tag)
    (clean : (openTag ⟨offset, '<' :: more⟩).Clean rest) :
    ∃ taken, '<' :: more = taken ++ rest ∧ ∀ (options : Options) (out rest' : Text),
      Renamed options taken out → ∃ more', out ++ rest' = '<' :: more' ∧
        Begins .tagOpen [] ['<'] more' ∧ ∀ offset', (openTag ⟨offset', '<' :: more'⟩).Clean rest' ∧
          ∃ tag', (openTag ⟨offset', '<' :: more'⟩).value = some tag' ∧
            tag'.name = renamedName options tag.name ∧ tag'.selfClosing = tag.selfClosing := by
  obtain ⟨taken, rfl, -, replaced⟩ := openTag_replace begins read clean
  refine ⟨'<' :: taken, rfl, fun options out rest' renamed => ?_⟩
  obtain rfl := renamed.behind (by rfl) (by decide)
  refine ⟨_, rfl, (replaced options rest' 0).1, fun offset' => ?_⟩
  obtain ⟨-, clean', tag', read', named, closes, -⟩ := replaced options rest' offset'
  exact ⟨clean', tag', read', named, closes⟩

/-- What is put in place of the classes handed to components, and at the start of the style. -/
structure Exchange where
  name : Usage → Text
  rules : Text

/-- The second text is the first, which starts at the offset, with the classes in it exchanged, if
there are any. They stand in a tag, which closes itself if the proposition holds. -/
def Exchange.Swaps (exchange : Exchange) (offset : Nat) (closed : Prop) (found : Option Usage)
    (taken edited : Text) : Prop :=
  (found = none ∧ edited = taken) ∨ ∃ usage before after, found = some usage ∧
    taken = before ++ (usage.group ++ after) ∧ usage.span.start = offset + Text.bytes before ∧
      edited = before ++ (exchange.name usage ++ after) ∧
        Slot before after ∧ '>' ∈ after ∧ (closed → '/' ∈ after)

/-- Classes may be exchanged in front of more text. -/
theorem Exchange.Swaps.append {exchange : Exchange} {closed closed' : Prop} {found : Option Usage}
    {taken edited : Text} (swaps : exchange.Swaps offset closed found taken edited)
    (behind : Text) (closes : found.isSome = true → closed' → closed) :
    exchange.Swaps offset closed' found (taken ++ behind) (edited ++ behind) := by
  rcases swaps with ⟨none, rfl⟩ | ⟨usage, before, after, rfl, rfl, start, rfl, slot, bracket, slash⟩
  · exact .inl ⟨none, rfl⟩
  · refine .inr ⟨usage, before, after ++ behind, rfl, ?_, start, ?_, slot.append_right behind,
      List.mem_append_left _ bracket, fun isClosed =>
        List.mem_append_left _ (slash (closes rfl isClosed))⟩
    all_goals simp only [List.append_assoc]

variable {exchange : Exchange}

/-- **An opening tag with its classes exchanged.** It is read wherever what it is renamed to
stands. -/
theorem openTag_exchange {role : Role} (begins : Begins .tagOpen [] ['<'] more)
    (read : (openTag ⟨offset, '<' :: more⟩).value = some tag)
    (clean : (openTag ⟨offset, '<' :: more⟩).Clean rest)
    (fits : ∀ usage ∈ tagUsage? role tag.attributes, Fits usage.group (exchange.name usage)) :
    ∃ taken edited, '<' :: more = taken ++ rest ∧
      exchange.Swaps offset (tag.selfClosing = true) (tagUsage? role tag.attributes) taken edited ∧
        ∀ (options : Options) (out rest' : Text), Renamed options edited out →
          ∃ more', out ++ rest' = '<' :: more' ∧ Begins .tagOpen [] ['<'] more' ∧
            ∀ offset', (openTag ⟨offset', '<' :: more'⟩).Clean rest' ∧
              ∃ tag', (openTag ⟨offset', '<' :: more'⟩).value = some tag' ∧
                tag'.name = renamedName options tag.name ∧ tag'.selfClosing = tag.selfClosing := by
  cases found : tagUsage? role tag.attributes with
  | none =>
    obtain ⟨taken, split, replaced⟩ := openTag_renamed begins read clean
    exact ⟨taken, taken, split, .inl ⟨rfl, rfl⟩, replaced⟩
  | some usage =>
    obtain ⟨nonempty, entry, member, literal, leads, span, group⟩ :=
      exists_literal_of_tagUsage? found
    rw [group] at nonempty
    obtain ⟨before, after, rfl, start, slot, bracket, slash, swapped⟩ :=
      openTag_slot begins read clean member leads nonempty
    have fit := fits usage found
    rw [group] at fit
    obtain ⟨begins₁, clean₁, tag₁, read₁, named₁, closes₁⟩ := swapped _ fit offset
    obtain ⟨edited, split, replaced⟩ := openTag_renamed begins₁ read₁ clean₁
    have isEdited : edited = '<' :: (before ++ (exchange.name usage ++ after)) := by
      refine (List.append_cancel_right (split.symm.trans ?_ : edited ++ rest = _ ++ rest))
      simp only [List.append_assoc, List.cons_append]
    rw [named₁, closes₁] at replaced
    refine ⟨'<' :: (before ++ (usage.group ++ after)), edited, ?_,
      .inr ⟨usage, '<' :: before, after, rfl, rfl, ?_, isEdited,
        (slot.of_append_right (List.ne_nil_of_mem bracket)).append ['<'], bracket, slash⟩, replaced⟩
    · rw [group]
      simp only [List.append_assoc, List.cons_append]
    · rw [span, start, Text.bytes_cons, ← Nat.add_assoc]
      rfl

/-- Renaming does not change what an element has for content. -/
theorem bodyOf_renamedName (options : Options) (name : String) (selfClosing : Bool) :
    bodyOf (renamedName options name) selfClosing = bodyOf name selfClosing := by
  have same : (Role.ofName (renamedName options name) selfClosing =
      .element (renamedName options name) selfClosing) ↔
        Role.ofName name selfClosing = .element name selfClosing := by
    rcases ofName_renamed options name selfClosing with ⟨-, -, isPlain, isPlain'⟩ | ⟨other, other'⟩
    · exact ⟨fun _ => isPlain, fun _ => isPlain'⟩
    · exact ⟨fun isPlain => absurd isPlain (other' _), fun isPlain => absurd isPlain (other _)⟩
  simp only [bodyOf, same, isVoid_renamedName, hasRawContent_renamedName,
    hasTextContent_renamedName]

/-- The name of a script has no mark. -/
theorem plainName_script : PlainName "script" := ⟨by decide, by decide, by decide⟩

/-- The name of a style has no mark. -/
theorem plainName_style : PlainName "style" := ⟨by decide, by decide, by decide⟩

/-- The name of a text area has no mark. -/
theorem plainName_textarea : PlainName "textarea" := ⟨by decide, by decide, by decide⟩

namespace Draft

/-- Read what an element has for content, and its closing tag, or open the element. -/
def readBody (draft : Draft) (tag : OpenTag) : Draft :=
  let entry : OpenElement := ⟨tag, Role.ofName tag.name tag.selfClosing, []⟩
  match bodyOf tag.name tag.selfClosing with
  | .empty => draft.add (entry.node draft.cursor.offset)
  | .raw =>
    let (span, content, place) := rawContent draft.cursor tag.name
    let closing := closingTag place tag.name
    let children : List Node :=
      if content.isEmpty then [] else [.text span (String.ofList content)]
    ((draft.moveTo closing.next).note closing.faults).add
      ({ entry with children }.node closing.next.offset)
  | .text =>
    let content := textContent tag.name draft.cursor
    let closing := closingTag content.next tag.name
    ((draft.moveTo closing.next).note (content.faults ++ closing.faults)).add
      ({ entry with children := content.value.reverse }.node closing.next.offset)
  | .markup => draft.enter (.element entry)

/-- An element is its opening tag and its content. -/
theorem readElement_eq {draft : Draft} (read : (openTag draft.cursor).value = some tag) :
    draft.readElement = ((draft.moveTo (openTag draft.cursor).next).note
      ((openTag draft.cursor).faults ++ unknownFaults tag)).readBody tag := by
  unfold readElement readBody bodyOf unknownFaults
  simp only [read]
  split
  · rfl
  · split
    · rfl
    · split <;> rfl

/-- A tag is not faulted exactly if its name is not that of an unknown special element. -/
theorem unknownFaults_eq_nil_iff : unknownFaults tag = [] ↔ isUnknownSpecial tag.name = false := by
  unfold unknownFaults
  cases isUnknownSpecial tag.name with
  | false => simp only [Bool.false_eq_true, ↓reduceIte]
  | true => simp only [↓reduceIte, List.cons_ne_self, Bool.true_eq_false]

/-- What follows an opening tag takes back no faults. -/
theorem readBody_faults (draft : Draft) (tag : OpenTag) :
    draft.faults <:+ (draft.readBody tag).faults := by
  unfold readBody
  split
  · simp only [faults_add, List.suffix_rfl]
  · rw [faults_add, faults_note, faults_moveTo]
    exact List.suffix_append _ _
  · rw [faults_add, faults_note, faults_moveTo]
    exact List.suffix_append _ _
  · simp only [faults_enter, List.suffix_rfl]

/-- What follows an opening tag brings the usage in the tag and no other. -/
theorem usages_readBody (draft : Draft) (tag : OpenTag) :
    (draft.readBody tag).usages =
      draft.usages ++ (tagUsage? (.ofName tag.name tag.selfClosing) tag.attributes).toList := by
  unfold readBody
  split
  · simp only [usages_add, OpenElement.usages_node, Opened.usages, List.reverse_nil,
      nodesUsages_nil, List.append_nil]
  · simp only [usages_add, usages_note, usages_moveTo, OpenElement.usages_node, Opened.usages]
    split <;> exact congrArg (draft.usages ++ ·) (List.append_nil _)
  · simp only [usages_add, usages_note, usages_moveTo, OpenElement.usages_node, Opened.usages,
      List.reverse_reverse, nodesUsages_eq_nil_of_textContent, List.append_nil]
  · simp only [usages_enter, Opened.usages, List.reverse_nil, nodesUsages_nil, List.append_nil]

/-- What follows an opening tag brings no style. -/
theorem style_readBody (draft : Draft) (tag : OpenTag) :
    (draft.readBody tag).style = draft.style := by
  unfold readBody
  split <;> simp only [style_add, style_note, style_moveTo, style_enter]

end Draft

/-- A renamed element is closed by what renaming makes of its tags. -/
theorem outline_renamed (named : tag'.name = renamedName options tag.name)
    (closes : tag'.selfClosing = tag.selfClosing) (children children' : List Node) :
    (Opened.element ⟨tag', .ofName tag'.name tag'.selfClosing, children'⟩).outline =
      (Opened.element ⟨tag, .ofName tag.name tag.selfClosing, children⟩).outline.renamed options := by
  simp only [Opened.outline, Role.ofName, named, closes, specialElement?_renamedName,
    namesComponent_renamedName]
  cases specialElement? tag.name with
  | some kind => rfl
  | none => cases namesComponent tag.name <;> rfl

/-- An element with raw content has a name without marks. -/
theorem plainName_of_bodyOf_raw {name : String} {selfClosing : Bool}
    (body : bodyOf name selfClosing = .raw) : PlainName name := by
  unfold bodyOf at body
  split at body
  · cases body
  · split at body
    case isTrue raw =>
      rcases Bool.or_eq_true_iff.mp raw with script | style
      · exact beq_iff_eq.mp script ▸ plainName_script
      · exact beq_iff_eq.mp style ▸ plainName_style
    case isFalse => split at body <;> cases body

/-- An element with text for content has a name without marks. -/
theorem plainName_of_bodyOf_text {name : String} {selfClosing : Bool}
    (body : bodyOf name selfClosing = .text) : PlainName name := by
  unfold bodyOf at body
  split at body
  · cases body
  · split at body
    · cases body
    · split at body
      case isTrue isText => exact beq_iff_eq.mp isText ▸ plainName_textarea
      case isFalse => cases body

/-- Text and expressions end before the closing tag, or with the source. -/
theorem textContent_ends (name : String) (cursor : Cursor) :
    (textContent name cursor).next.rest = [] ∨
      ∃ more, (textContent name cursor).next.rest = closingLead name ++ more := by
  fun_induction textContent name cursor with
  | case1 => exact .inl rfl
  | case2 cursor stops found place leading inside left inner after closed stop _ _ _ _ more ih =>
    exact ih
  | case3 cursor stops found place leading notBrace =>
    obtain ⟨-, ends⟩ := quiet_spanUntil (stopsText name) cursor.rest
    refine ends.imp id fun stop => ?_
    rcases Bool.or_eq_true_iff.mp stop with brace | closing
    · obtain ⟨inside, left⟩ := eq_append_of_startsWith brace
      exact absurd left (notBrace inside)
    · exact eq_append_of_startsWith closing

/-- A closing tag that directly follows has the text of one. -/
theorem closingTag_lead {name : String} {text : Text}
    (clean : (closingTag ⟨offset, closingLead name ++ text⟩ name).Clean rest) :
    ∃ blanks, text = blanks ++ (['>'] ++ rest) ∧ BodyText name [] blanks := by
  obtain ⟨blanks, letters, blanks', split, blank, blank', named, plain, isName⟩ :=
    closingTag_text clean
  obtain rfl : blanks = [] := by
    cases blanks with
    | nil => rfl
    | cons c blanks =>
      obtain rfl := (List.cons.inj split).1
      cases blank '<' List.mem_cons_self
  have letters_eq : name.toList = letters := by rw [isName, String.toList_ofList]
  rw [closingLead, letters_eq] at split
  have text_eq : text = blanks' ++ (['>'] ++ rest) :=
    List.append_cancel_left (List.cons.inj (List.cons.inj split).2).2
  exact ⟨blanks', text_eq, trivial, blank', letters_eq ▸ named, letters_eq ▸ plain⟩

/-- Behind such content, the closing tag is read without faults. -/
theorem BodyText.closingTag {name : String} {content blanks : Text}
    (form : BodyText name content blanks) {cursor : Cursor}
    (split : cursor.rest = closingLead name ++ (blanks ++ (['>'] ++ rest))) :
    (closingTag cursor name).Clean rest := by
  obtain ⟨place, input⟩ := cursor
  obtain rfl := split
  have closed := closingTag_eq (show ∀ c ∈ [], Text.isSeparator c = true from nofun) form.named
    form.blank rest place
  rw [String.ofList_toList] at closed
  exact closed

/-- Text and expressions with the closing tag behind them are read wherever what they are renamed to
stands. -/
theorem textContent_carries {name : String} {cursor : Cursor} (plainName : PlainName name)
    (noFaults : (textContent name cursor).faults = [])
    (closed : (closingTag (textContent name cursor).next name).Clean rest) :
    ∃ blanks taken, cursor.rest = taken ++ (closingLead name ++ (blanks ++ (['>'] ++ rest))) ∧
      BodyText name [] blanks ∧ ∀ (out rest' : Text) (offset' : Nat), Twins taken out →
        let content := textContent name
          ⟨offset', out ++ (closingLead name ++ (blanks ++ (['>'] ++ rest')))⟩
        content.faults = [] ∧ (closingTag content.next name).Clean rest' := by
  obtain ⟨tail, ends⟩ : ∃ tail, (textContent name cursor).next.rest = closingLead name ++ tail := by
    rcases textContent_ends name cursor with ended | found
    · obtain ⟨blanks, name', blanks', split, -⟩ := closingTag_text
        (show (closingTag ⟨(textContent name cursor).next.offset, []⟩ name).Clean rest by
          rw [← ended]; exact closed)
      cases blanks <;> cases split
    · exact found
  obtain ⟨blanks, rfl, form⟩ := closingTag_lead
    (show (closingTag ⟨(textContent name cursor).next.offset, closingLead name ++ tail⟩ name).Clean
      rest by rw [← ends]; exact closed)
  obtain ⟨taken, split, replaced⟩ := textContent_replace plainName ⟨noFaults, ends⟩
  refine ⟨blanks, taken, split, form, fun out rest' offset' twins => ?_⟩
  obtain ⟨noFaults', goesOn⟩ := replaced out (blanks ++ (['>'] ++ rest')) offset' twins
  exact ⟨noFaults', form.closingTag goesOn⟩

namespace Draft

variable {draft : Draft}

variable (options) in
/-- The content of an element, with its closing tag, is read wherever what it is renamed to
stands. -/
theorem readBody_carries (tag : OpenTag) (clean : (draft.readBody tag).faults = []) :
    ∃ taken, draft.cursor.rest = taken ++ (draft.readBody tag).cursor.rest ∧
      ∀ (other : Draft) (tag' : OpenTag) (out rest' : Text), Alike options draft other →
        tag'.name = renamedName options tag.name → tag'.selfClosing = tag.selfClosing →
          other.cursor.rest = out ++ rest' → Renamed options taken out →
            (other.readBody tag').cursor.rest = rest' ∧
              Alike options (draft.readBody tag) (other.readBody tag') := by
  have same (tag' : OpenTag) (named : tag'.name = renamedName options tag.name)
      (closes : tag'.selfClosing = tag.selfClosing) :
      bodyOf tag'.name tag'.selfClosing = bodyOf tag.name tag.selfClosing := by
    rw [named, closes, bodyOf_renamedName]
  -- What there is to read depends on the name, and in the same way after renaming.
  cases body : bodyOf tag.name tag.selfClosing with
  | empty =>
    refine ⟨[], ?_, fun other tag' out rest' alike named closes split renamed => ?_⟩
    · simp only [readBody, body, cursor_add, List.nil_append]
    · obtain rfl := renamed.twins.eq_nil_iff.mpr rfl
      simp only [readBody, body, same tag' named closes, cursor_add]
      exact ⟨split, by rw [faults_add, alike.clean],
        by rw [summary_add, summary_add, alike.summary]⟩
  | markup =>
    refine ⟨[], ?_, fun other tag' out rest' alike named closes split renamed => ?_⟩
    · simp only [readBody, body, cursor_enter, List.nil_append]
    · obtain rfl := renamed.twins.eq_nil_iff.mpr rfl
      simp only [readBody, body, same tag' named closes, cursor_enter]
      refine ⟨split, alike.clean, ?_⟩
      rw [summary_enter, summary_enter, alike.summary, outline_renamed named closes [] []]
      rfl
  | raw =>
    -- A plain name is renamed to itself, so content is searched for the same closing tag.
    have plain := plainName_of_bodyOf_raw body
    have isSame {tag' : OpenTag} (named : tag'.name = renamedName options tag.name) :
        tag'.name = tag.name := named.trans (renamedName_of_plain plain)
    simp only [readBody, body, faults_add, faults_note_eq_nil] at clean
    obtain ⟨content, blanks, split, form⟩ := bodyText_of_clean plain
      (show Reading.Clean (closingTag (rawContent ⟨_, _⟩ tag.name).2.2 tag.name) _ from
        ⟨clean.1, rfl⟩)
    refine ⟨content ++ (closingLead tag.name ++ (blanks ++ ['>'])), ?_,
      fun other tag' out rest' alike named closes split' renamed => ?_⟩
    · simp only [readBody, body, cursor_add, cursor_note, cursor_moveTo]
      rw [split]
      simp only [List.append_assoc]
    · obtain ⟨content', rfl, form'⟩ := form.replace plain renamed.twins
      have read := form'.read plain rest' other.cursor.offset
      simp only [List.append_assoc] at split'
      rw [← split'] at read
      obtain ⟨-, noFaults, goesOn⟩ := read
      simp only [readBody, isSame named, closes, body, cursor_add, cursor_note, cursor_moveTo]
      refine ⟨goesOn, ?_, ?_⟩
      · rw [faults_add, faults_note, faults_moveTo, alike.clean, noFaults]
        rfl
      · simp only [summary_add, summary_note, summary_moveTo, alike.summary]
  | text =>
    have plain := plainName_of_bodyOf_text body
    have isSame {tag' : OpenTag} (named : tag'.name = renamedName options tag.name) :
        tag'.name = tag.name := named.trans (renamedName_of_plain plain)
    simp only [readBody, body, faults_add, faults_note_eq_nil, List.append_eq_nil_iff] at clean
    obtain ⟨⟨noFaults, closed⟩, -⟩ := clean
    obtain ⟨blanks, taken, split, form, replaced⟩ := textContent_carries plain noFaults
      ⟨closed, rfl⟩
    refine ⟨taken ++ (closingLead tag.name ++ (blanks ++ ['>'])), ?_,
      fun other tag' out rest' alike named closes split' renamed => ?_⟩
    · simp only [readBody, body, cursor_add, cursor_note, cursor_moveTo]
      rw [split]
      simp only [List.append_assoc]
    · obtain ⟨out', rfl, texts⟩ := renamed.twins.append_right (form.no_colon plain)
      simp only [List.append_assoc] at split'
      obtain ⟨noFaults', closed', goesOn⟩ := replaced out' rest' other.cursor.offset texts
      rw [← split'] at noFaults' closed' goesOn
      simp only [readBody, isSame named, closes, body, cursor_add, cursor_note, cursor_moveTo]
      refine ⟨goesOn, ?_, ?_⟩
      · rw [faults_add, faults_note, faults_moveTo, alike.clean, noFaults', closed']
        rfl
      · simp only [summary_add, summary_note, summary_moveTo, alike.summary]

/-- A component whose tag does not close itself has markup for content. -/
theorem bodyOf_of_isComponent {name : String} {selfClosing : Bool}
    (isComponent : (Role.ofName name selfClosing).isComponent = true) :
    bodyOf name selfClosing = if selfClosing then .empty else .markup := by
  have notElement : Role.ofName name selfClosing ≠ .element name selfClosing := by
    intro isElement
    rw [isElement] at isComponent
    cases isComponent
  have notNamed (other : String)
      (isElement : (Role.ofName other selfClosing).isComponent = false) : name ≠ other := by
    rintro rfl
    rw [isElement] at isComponent
    cases isComponent
  have noRaw : hasRawContent name = false :=
    Bool.or_eq_false_iff.mpr ⟨beq_eq_false_iff_ne.mpr (notNamed "script" rfl),
      beq_eq_false_iff_ne.mpr (notNamed "style" rfl)⟩
  have noText : hasTextContent name = false :=
    beq_eq_false_iff_ne.mpr (notNamed "textarea" rfl)
  simp only [bodyOf, notElement, false_and, or_false, noRaw, noText, Bool.false_eq_true, ↓reduceIte]

/-- A tag with classes for a component closes itself or opens the component. -/
theorem selfClosing_of_usage
    (hasClasses : (tagUsage? (.ofName tag.name tag.selfClosing) tag.attributes).isSome = true)
    (isClosed : (draft.readBody tag).opened = []) : tag.selfClosing = true := by
  have isComponent : (Role.ofName tag.name tag.selfClosing).isComponent = true := by
    unfold tagUsage? at hasClasses
    split at hasClasses
    · assumption
    · cases hasClasses
  unfold readBody at isClosed
  rw [bodyOf_of_isComponent isComponent] at isClosed
  cases closes : tag.selfClosing with
  | true => rfl
  | false =>
    rw [closes] at isClosed
    cases isClosed

/-- An element without faults has a tag without faults, and its name is known. -/
theorem exists_of_readElement_clean (clean : draft.readElement.faults = []) :
    ∃ tag, (openTag draft.cursor).value = some tag ∧ (openTag draft.cursor).faults = [] ∧
      unknownFaults tag = [] := by
  cases read : (openTag draft.cursor).value with
  | none =>
    unfold readElement at clean
    simp only [read, faults_note_eq_nil] at clean
    obtain ⟨tag, read'⟩ := openTag_of_clean clean.1
    rw [read] at read'
    cases read'
  | some tag =>
    rw [readElement_eq read] at clean
    have none := readBody_faults ((draft.moveTo (openTag draft.cursor).next).note
      ((openTag draft.cursor).faults ++ unknownFaults tag)) tag
    rw [clean, List.suffix_nil] at none
    rw [faults_note_eq_nil, List.append_eq_nil_iff] at none
    exact ⟨tag, rfl, none.1⟩

/-- **An element with its classes exchanged.** It is read wherever what it is renamed to stands, as
far as it is read in one step. -/
theorem readElement_turn {more : Text} (split : draft.cursor.rest = '<' :: more)
    (begins : Begins .tagOpen [] ['<'] more) (clean : draft.readElement.faults = [])
    (fits : ∀ usage ∈ draft.readElement.usages, Fits usage.group (exchange.name usage)) :
    ∃ taken edited new, draft.readElement.usages = draft.usages ++ new.toList ∧
      draft.readElement.style = draft.style ∧
        exchange.Swaps draft.cursor.offset (draft.readElement.opened = []) new taken edited ∧
          Turn options readElement draft taken edited := by
  obtain ⟨tag, read, noFaults, known⟩ := exists_of_readElement_clean clean
  have whole := readElement_eq read
  rw [noFaults, known, List.append_nil] at whole
  have usages : draft.readElement.usages =
      draft.usages ++ (tagUsage? (.ofName tag.name tag.selfClosing) tag.attributes).toList := by
    rw [whole, usages_readBody, usages_note, usages_moveTo]
  have place : draft.cursor = ⟨draft.cursor.offset, '<' :: more⟩ := by rw [← split]
  rw [place] at read noFaults
  -- Classes are exchanged in the tag, and what follows it is read as before.
  obtain ⟨taken₁, edited, tagSplit, swaps, tagRead⟩ := openTag_exchange begins read
    ⟨noFaults, rfl⟩ fun usage found =>
      fits usage (by rw [usages, found]; exact List.mem_append_right _ List.mem_cons_self)
  rw [whole] at clean
  obtain ⟨taken₂, bodySplit, bodyRead⟩ := readBody_carries options tag clean
  refine ⟨taken₁ ++ taken₂, edited ++ taken₂, _, usages, ?_, swaps.append taken₂ ?_, ⟨?_, ?_⟩⟩
  · rw [whole, style_readBody, style_note, style_moveTo]
  · intro hasClasses isClosed
    rw [whole] at isClosed
    exact selfClosing_of_usage hasClasses isClosed
  · rw [whole, List.append_assoc, ← bodySplit, split, tagSplit, place]
    rfl
  · intro other out rest' alike split' renamed
    obtain ⟨out₁, out₂, rfl, renamed₁, renamed₂⟩ := renamed.append
    rw [List.append_assoc] at split'
    obtain ⟨more', starts, begins', tagRead'⟩ := tagRead options out₁ (out₂ ++ rest') renamed₁
    obtain ⟨⟨noFaults', goesOn'⟩, tag', read', named, closes⟩ := tagRead' other.cursor.offset
    have place' : other.cursor = ⟨other.cursor.offset, '<' :: more'⟩ := by rw [← starts, ← split']
    have known' : unknownFaults tag' = [] := by
      rw [unknownFaults_eq_nil_iff, named, isUnknownSpecial_renamedName,
        unknownFaults_eq_nil_iff.mp known]
    have whole' := readElement_eq (show (openTag other.cursor).value = some tag' by
      rw [place']; exact read')
    rw [place', noFaults', known', List.append_nil] at whole'
    refine ⟨?_, ?_⟩
    · rw [split, split', starts]
      exact .of_openTag begins begins' read read' named
    · rw [whole, whole']
      exact bodyRead _ tag' out₂ rest' ⟨alike.clean, alike.summary⟩ named closes goesOn' renamed₂

end Draft

end ClassHoist.Markup
