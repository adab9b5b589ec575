import ClassHoist.Proofs.NodeNesting

/-! # Tags at the place reached

A tag that is read without faults stands in the source. So does a tag that closes an element other
than its own: the element is left without reading the tag, and the same tag is then met by what is
around the element, until it is read. In a reading without faults that happens
(`Draft.openTag_of_run_clean`, `Draft.closingTag_of_run_clean`).
-/

namespace ClassHoist.Markup

section Tags

variable {source : Text} {cursor : Cursor} {tag : OpenTag}

/-- An opening tag without faults stands in the source where it was read. -/
theorem openTagAt_of_clean (reach : (Cursor.start source).Reaches cursor)
    (starts : StartsConstruct cursor.rest) (opens : cursor.token.kind = .tagOpen)
    (read : (openTag cursor).value = some tag) (clean : (openTag cursor).faults = []) :
    OpenTagAt source cursor.offset tag (openTag cursor).next.offset := by
  obtain ⟨before, split, counted⟩ := reach
  have named := openTag_name read
  obtain ⟨offset, input⟩ := cursor
  obtain ⟨more, rfl, begins⟩ := starts.begins opens rfl
  have name := tagName?_eq begins offset
  rw [List.nil_append, named] at name
  obtain ⟨letters, leads, same⟩ := Option.map_eq_some_iff.mp name.symm
  refine ⟨before, more, (openTag ⟨offset, '<' :: more⟩).next.rest, split,
    (counted.trans (Nat.zero_add _)).symm, ?_, ?_⟩
  · rw [leads, ← same, String.toList_ofList]
  · rw [List.singleton_append] at read clean ⊢
    rw [← read, ← clean]

/-- A closing tag without faults stands in the source where it was read. -/
theorem closingTagAt_of_clean {name : String} (reach : (Cursor.start source).Reaches cursor)
    (starts : StartsConstruct cursor.rest) (clean : (closingTag cursor name).faults = []) :
    ClosingTagAt source name cursor.offset (closingTag cursor name).next.offset := by
  obtain ⟨before, split, counted⟩ := reach
  obtain ⟨taken, joined, stopIs⟩ := closingTag_reaches cursor name
  obtain ⟨blanks, letters, blanks', text, blank, blank', -, -, rfl⟩ :=
    closingTag_text (⟨clean, rfl⟩ : (closingTag cursor name).Clean _)
  -- No blank starts a construct.
  obtain rfl : blanks = [] := by
    cases blanks with
    | nil => rfl
    | cons c blanks =>
      have isBlank := blank c List.mem_cons_self
      rw [text] at starts
      rcases isTextChar_eq_false (starts c rfl) with rfl | rfl <;> cases isBlank
  have isTaken : taken = closingLead (String.ofList letters) ++ (blanks' ++ ['>']) := by
    refine List.append_cancel_right (joined.symm.trans (text.trans ?_))
    simp only [closingLead, String.toList_ofList, List.nil_append, List.cons_append,
      List.append_assoc]
  refine ⟨blanks', blank', before, (closingTag cursor (String.ofList letters)).next.rest, ?_,
    (counted.trans (Nat.zero_add _)).symm, ?_⟩
  · rw [← isTaken, ← joined]
    exact split
  · rw [← isTaken, stopIs]

/-- A closing tag without faults has the name of its element. -/
theorem closingTag_name {name : String} (opens : cursor.token.kind = .closingOpen)
    (clean : (closingTag cursor name).faults = []) : cursor.tagName? = some name := by
  unfold closingTag at clean
  rw [if_pos opens] at clean
  by_contra other
  rw [if_neg other] at clean
  cases clean

/-- Where a closing tag begins or the text ends, no run of text does. -/
theorem startsConstruct_closingLead {name : String} {text : Text}
    (ends : text = [] ∨ ∃ more, text = closingLead name ++ more) : StartsConstruct text := by
  rcases ends with rfl | ⟨more, rfl⟩
  · exact fun c isHead => absurd isHead (Option.not_mem_none c)
  · exact fun c isHead => Option.some.inj isHead ▸ rfl

/-- Behind raw content a construct starts, or nothing. -/
theorem starts_of_rawContent (cursor : Cursor) (name : String) :
    StartsConstruct (rawContent cursor name).2.2.rest := by
  obtain ⟨-, ends⟩ := quiet_spanUntil (Text.startsWith (closingLead name)) cursor.rest
  exact startsConstruct_closingLead (ends.imp_right eq_append_of_startsWith)

/-- Behind the text of a text area a construct starts, or nothing. -/
theorem starts_of_textContent (name : String) (cursor : Cursor) :
    StartsConstruct (textContent name cursor).next.rest :=
  startsConstruct_closingLead (textContent_ends name cursor)

/-- An element of the document has the name of its tag. -/
theorem ofName_eq_element {name other : String} {selfClosing closes : Bool}
    (isPlain : Role.ofName name selfClosing = .element other closes) :
    other = name ∧ closes = selfClosing := by
  unfold Role.ofName at isPlain
  split at isPlain
  · cases isPlain
  · split at isPlain
    · cases isPlain
    · cases isPlain
      exact ⟨rfl, rfl⟩

/-- An element without content has a tag that closes itself, or it is void. -/
theorem bodyOf_eq_empty (body : bodyOf tag.name tag.selfClosing = .empty) :
    tag.selfClosing = true ∨ (Role.ofName tag.name tag.selfClosing = .element tag.name false ∧
      isVoid tag.name = true) := by
  unfold bodyOf at body
  split at body
  case isFalse =>
    split at body
    · cases body
    · split at body <;> cases body
  case isTrue empty =>
    cases closes : tag.selfClosing with
    | true => exact .inl rfl
    | false =>
      rw [closes] at empty
      exact .inr (empty.resolve_left Bool.false_ne_true)

/-- An element whose content is markup has a tag that does not close itself. -/
theorem selfClosing_of_markup (body : bodyOf tag.name tag.selfClosing = .markup) :
    tag.selfClosing = false := by
  cases closes : tag.selfClosing with
  | false => rfl
  | true =>
    rw [closes, bodyOf, if_pos (.inl rfl)] at body
    cases body

/-- A construct in braces that starts as an ending tag and holds the keyword of a block is its
ending tag. -/
theorem endingTagAt_of_braced {kind : BlockKind} {braced : Braced}
    (reach : (Cursor.start source).Reaches cursor) (starts : StartsConstruct cursor.rest)
    (opens : cursor.token.kind = .blockEnd) (found : cursor.braced? = some braced)
    (named : String.ofList (Text.trim braced.inner) = kind.keyword) :
    EndingTagAt source kind cursor.offset braced.next.offset := by
  obtain ⟨before, split, counted⟩ := reach
  obtain ⟨taken, joined, stopIs⟩ := Cursor.reaches_braced? found
  obtain ⟨offset, input⟩ := cursor
  obtain ⟨more, rfl, begins⟩ := starts.begins opens rfl
  obtain ⟨rfl, -⟩ := begins.eq_of_braced? found
  have isTaken : taken = '\x7b' :: '/' :: (braced.inner ++ ['\x7d']) := by
    refine List.append_cancel_right (joined.symm.trans ?_)
    simp only [List.cons_append, List.nil_append, List.append_assoc]
  refine ⟨braced.inner, ?_, before, braced.next.rest, ?_, (counted.trans (Nat.zero_add _)).symm, ?_⟩
  · rw [← named, String.toList_ofList]
  · rw [← isTaken, ← joined]
    exact split
  · rw [← isTaken, stopIs]

end Tags

namespace Draft

variable {draft : Draft}

/-- An element without faults has an opening tag without faults. -/
theorem openTag_of_readElement_clean (clean : draft.readElement.faults = []) :
    (openTag draft.cursor).faults = [] := by
  obtain ⟨tag, -, noFaults, -⟩ := exists_of_readElement_clean clean
  exact noFaults

/-- At top level, a step without faults at a tag has an opening tag without faults. -/
theorem openTag_of_readTop_clean (opens : draft.cursor.token.kind = .tagOpen)
    (clean : draft.readTop.faults = []) : (openTag draft.cursor).faults = [] := by
  have raw {next : Draft}
      (kept : ((draft.moveTo (rawElement draft.cursor).next).note
        (rawElement draft.cursor).faults).faults <:+ next.faults)
      (none : next.faults = []) : (openTag draft.cursor).faults = [] := by
    rw [none, List.suffix_nil, faults_note_eq_nil] at kept
    exact openTag_of_rawElement_clean kept.1
  unfold readTop at clean
  rw [if_pos opens] at clean
  split at clean
  case h_1 =>
    refine raw ?_ clean
    unfold readScript
    simp only
    repeat' split
    all_goals first | exact List.suffix_rfl | exact List.suffix_append _ _
  case h_2 =>
    refine raw ?_ clean
    unfold readStyle
    simp only
    repeat' split
    all_goals first | exact List.suffix_rfl | exact List.suffix_append _ _
  case h_3 notScript notStyle =>
    rw [readNode_eq, opens] at clean
    exact openTag_of_readElement_clean clean

/-- A tag that opens where the reading goes on without faults is read without faults, even if it
closes other elements first. -/
theorem openTag_of_run_clean (starts : StartsConstruct draft.cursor.rest)
    (opens : draft.cursor.token.kind = .tagOpen) (clean : draft.run.faults = []) :
    (openTag draft.cursor).faults = [] := by
  fun_induction run draft with
  | case1 draft ended =>
    refine absurd (rest_of_step_eq_none ended) (rest_ne_nil ?_)
    rw [opens]
    decide
  | case2 draft next stepped ih =>
    have nextClean : next.faults = [] := List.suffix_nil.mp (clean ▸ run_faults next)
    have inNode (clean : draft.readNode.faults = []) : (openTag draft.cursor).faults = [] := by
      rw [readNode_eq, opens] at clean
      exact openTag_of_readElement_clean clean
    cases step_eq_some_iff.mp stepped with
    | text someText => exact absurd (startsConstruct_iff.mp starts) someText
    | top => exact openTag_of_readTop_clean opens nextClean
    | @close entry outer _ _ ends =>
      -- Of what ends an element only a tag that closes it as a sibling opens anything.
      have sibling : draft.atSibling = true := by
        rw [opens] at ends
        obtain ended | closing | sibling := ends
        · cases ended
        · cases closing
        · exact sibling
      have here : (draft.closeElement entry outer).cursor = draft.cursor := by
        rw [closeElement_of_implied (by rw [sibling]; rfl), cursor_leave]
      rw [here] at ih
      exact ih starts opens clean
    | child | inner => exact inNode nextClean
    | abandon => exact absurd nextClean abandonBlock_faults_ne_nil
    | branch _ _ other | finish _ _ other =>
      rw [opens] at other
      cases other

/-- A closing tag where the reading goes on without faults is the closing tag of an element of its
name, even if it closes other elements first. -/
theorem closingTag_of_run_clean {name : String} (starts : StartsConstruct draft.cursor.rest)
    (opens : draft.cursor.token.kind = .closingOpen) (named : draft.cursor.tagName? = some name)
    (clean : draft.run.faults = []) : (closingTag draft.cursor name).faults = [] := by
  fun_induction run draft with
  | case1 draft ended =>
    refine absurd (rest_of_step_eq_none ended) (rest_ne_nil ?_)
    rw [opens]
    decide
  | case2 draft next stepped ih =>
    have nextClean : next.faults = [] := List.suffix_nil.mp (clean ▸ run_faults next)
    cases step_eq_some_iff.mp stepped with
    | text someText => exact absurd (startsConstruct_iff.mp starts) someText
    | top =>
      have stray : draft.readTop = draft.readStrayClosing := by
        rw [readTop_of_other (fun isTag => by rw [opens] at isTag; cases isTag), readNode_eq, opens]
        rfl
      rw [stray] at nextClean
      exact absurd nextClean (faults_note_ne_nil _ _ _)
    | @close entry outer =>
      by_cases implied : (draft.atSibling || draft.atOuterClosing) = true
      · have here : (draft.closeElement entry outer).cursor = draft.cursor := by
          rw [closeElement_of_implied implied, cursor_leave]
        rw [here] at ih
        exact ih starts opens named clean
      · rw [closeElement_of_not_implied (Bool.not_eq_true _ ▸ implied), faults_leave,
          faults_note_eq_nil] at nextClean
        have own := closingTag_name opens nextClean.1
        rw [named] at own
        rw [Option.some.inj own]
        exact nextClean.1
    | child _ _ _ notClosing | inner _ _ _ notClosing => exact absurd opens notClosing
    | abandon => exact absurd nextClean abandonBlock_faults_ne_nil
    | branch _ _ other | finish _ _ other =>
      rw [opens] at other
      cases other

end Draft

end ClassHoist.Markup
