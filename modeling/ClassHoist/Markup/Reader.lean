import ClassHoist.Markup.Draft

/-! # Reading a document

A document is read in steps. Each step reads a run of text or one construct, or it leaves the
innermost open element or block without reading anything; so reading ends, and at the end of the
source with nothing open. No source is refused: what is wrong becomes a fault. What a step can do is
said once (`Draft.Steps`); a property is shown to outlast every step by cases on it.
-/

namespace ClassHoist.Markup

/-- A character of text between tags and braces. -/
def isTextChar (c : Char) : Bool :=
  c != '<' && c != '\x7b'

/-- The start of the closing tag of an element. -/
def closingLead (name : String) : Text := '<' :: '/' :: name.toList

/-- The closing tag of the element of the name, which should be the first token. The closing tag
of another element is left alone. -/
def closingTag (cursor : Cursor) (name : String) : Reading Unit :=
  let place := cursor.token
  if place.kind = .closingOpen then
    let found := cursor.tagName?.getD ""
    if cursor.tagName? = some name then cursor.bump.bump.expect .tagEnd
    else ⟨(), [⟨.mismatchedClosingTag name found, place.span⟩], cursor⟩
  else ⟨(), [⟨.unclosedTag name, place.span⟩], cursor⟩

/-- Content that is not markup: all text up to the start of the closing tag of the element. -/
def rawContent (cursor : Cursor) (name : String) : Span × Text × Cursor :=
  let (content, rest) := Text.spanUntil (Text.startsWith (closingLead name)) cursor.rest
  let next := cursor.past content rest
  (⟨cursor.offset, next.offset⟩, content, next)

/-- What follows the brace that closes a bracketed part is shorter than the text around it. -/
theorem length_afterClosing_lt {stop : Text → Bool} {text inside inner after : Text} {c : Char}
    (left : (Text.spanUntil stop text).2 = c :: inside)
    (closed : Expression.closing? '\x7d' inside = some (inner, after)) :
    after.length < text.length := by
  have shorter := Expression.length_closing?_lt closed
  have dropped := Text.length_spanUntil_le stop text
  rw [left, List.length_cons] at dropped
  omega

/-- Text and expressions up to the start of the closing tag of the element. -/
def textContent (name : String) (cursor : Cursor) : Reading (List Node) :=
  let stops (text : Text) : Bool :=
    Text.startsWith ['\x7b'] text || Text.startsWith (closingLead name) text
  let found := Text.spanUntil stops cursor.rest
  let place := cursor.past found.1 found.2
  let leading : List Node :=
    if found.1.isEmpty then []
    else [.text ⟨cursor.offset, place.offset⟩ (String.ofList found.1)]
  match left : found.2 with
  | '\x7b' :: inside =>
    match closed : Expression.closing? '\x7d' inside with
    | none =>
      ⟨leading,
        [⟨.unexpectedEnd (.token .braceClose), ⟨place.offset, place.offset + 1⟩⟩], place.toEnd⟩
    | some (inner, after) =>
      let stop := place.offset + 1 + inner.bytes + 1
      let (codeSpan, code) := trimmed (place.offset + 1) inner
      have : after.length < cursor.rest.length := length_afterClosing_lt left closed
      let more := textContent name ⟨stop, after⟩
      ⟨leading ++ .expression ⟨⟨place.offset, stop⟩, codeSpan, String.ofList code⟩ :: more.value,
        more.faults, more.next⟩
  | _ => ⟨leading, [], place⟩
termination_by cursor.rest.length

/-- A script or style at top level: its span with the tags, the span and the text of what is between
them, and the attributes of the opening tag. -/
structure RawElement where
  span : Span
  contentSpan : Span
  content : Text
  attributes : List Attribute

/-- The script or style whose opening tag starts with the first token. -/
def rawElement (cursor : Cursor) : Reading (Option RawElement) :=
  let opening := openTag cursor
  match opening.value with
  | none => ⟨none, opening.faults, opening.next⟩
  | some tag =>
    let inside := opening.next
    if tag.selfClosing then
      ⟨some ⟨⟨tag.start, inside.offset⟩, Span.empty inside.offset, [], tag.attributes⟩,
        opening.faults, inside⟩
    else
      let (contentSpan, content, place) := rawContent inside tag.name
      let closing := closingTag place tag.name
      ⟨some ⟨⟨tag.start, closing.next.offset⟩, contentSpan, content, tag.attributes⟩,
        opening.faults ++ closing.faults, closing.next⟩

/-- A raw element without faults has an opening tag without faults. -/
theorem openTag_of_rawElement_clean {cursor : Cursor} (clean : (rawElement cursor).faults = []) :
    (openTag cursor).faults = [] := by
  unfold rawElement at clean
  simp only at clean
  split at clean
  case h_1 => exact clean
  case h_2 tag read =>
    split at clean
    · exact clean
    · exact (List.append_eq_nil_iff.mp clean).1

/-- A raw element without faults is there. -/
theorem exists_of_rawElement_clean {cursor : Cursor} (noFaults : (rawElement cursor).faults = []) :
    ∃ raw, (rawElement cursor).value = some raw := by
  obtain ⟨tag, read⟩ := openTag_of_clean (openTag_of_rawElement_clean noFaults)
  unfold rawElement
  simp only [read]
  split <;> exact ⟨_, rfl⟩

/-- An attribute of one of the names whose value starts with text that passes the test. -/
def Attribute.declares (names : List String) (test : Option String → Bool) : Attribute → Bool
  | .named _ name value => names.contains name && test (value.leadingText?.map Literal.raw)
  | _ => false

/-- The value names TypeScript. -/
def namesTypeScript (value : String) : Bool :=
  value == "ts" || Text.holds "typescript".toList value.toList

/-- The script that a raw element holds. -/
def Script.ofRaw (raw : RawElement) : Script :=
  let typed :=
    raw.attributes.any (·.declares ["lang", "type"] fun value => value.any namesTypeScript)
  let shared := raw.attributes.any fun attr =>
    attr.declares ["context"] (· == some "module") || attr.declares ["module"] fun _ => true
  { span := raw.span
    contentSpan := raw.contentSpan
    content := String.ofList raw.content
    language := if typed then .typeScript else .javaScript
    context := if shared then .perModule else .perInstance
    attributes := raw.attributes }

/-- The style that a raw element holds. -/
def Style.ofRaw (raw : RawElement) : Style :=
  ⟨raw.span, raw.contentSpan, String.ofList raw.content, raw.attributes⟩

/-- What an element has for content: none and no closing tag, text that is not markup, text and
expressions, or markup. -/
inductive Body where
  | empty
  | raw
  | text
  | markup

/-- What an element of a name has for content. -/
def bodyOf (name : String) (selfClosing : Bool) : Body :=
  if selfClosing ∨ (Role.ofName name selfClosing = .element name selfClosing ∧ isVoid name) then
    .empty
  else if hasRawContent name then .raw
  else if hasTextContent name then .text
  else .markup

/-- The branch that a continuing tag starts, and its condition, value or error. -/
def branchHeader (braced : Braced) : Option (BranchKind × String) :=
  let (keyword, embedded) := braced.withKeyword
  let after := embedded.code.toList
  if keyword = "else" then
    match Text.dropLead? ['i', 'f'] after with
    | some condition =>
      if condition.isEmpty || (condition.head?.map Text.isBlank).getD false then
        some (.otherwiseIf, String.ofList (Text.trim condition))
      else none
    | none => if after.isEmpty then some (.otherwise, "") else none
  else if keyword = "then" then some (.kept, embedded.code)
  else if keyword = "catch" then some (.broken, embedded.code)
  else none

namespace Draft

/-- The fault of a tag whose name is that of no special element. -/
def unknownFaults (tag : OpenTag) : List Fault :=
  if isUnknownSpecial tag.name then
    [⟨.invalidTagName tag.name, ⟨tag.start, tag.start + 1 + Text.bytes tag.name.toList⟩⟩]
  else []

/-- Keep a script, unless there is one of its kind. -/
def keepScript (raw : RawElement) (span : Span) (draft : Draft) : Draft :=
  let script := Script.ofRaw raw
  let again : List Fault := [⟨.duplicate "script", span⟩]
  match script.context with
  | .perModule =>
    if draft.moduleScript.isSome then draft.note again
    else { draft with moduleScript := some script }
  | .perInstance =>
    if draft.instanceScript.isSome then draft.note again
    else { draft with instanceScript := some script }

/-- Keep a style, unless there is one. -/
def keepStyle (raw : RawElement) (span : Span) (draft : Draft) : Draft :=
  if draft.style.isSome then draft.note [⟨.duplicate "style", span⟩]
  else { draft with style := some (Style.ofRaw raw) }

/-- Read a comment. A comment that does not end is left out, with all that follows. -/
def readComment (draft : Draft) : Draft :=
  let opening := draft.cursor.token
  let inside := draft.cursor.bump
  let (data, rest) := Text.spanUntil (Text.startsWith ['-', '-', '>']) inside.rest
  match rest with
  | '-' :: '-' :: '>' :: after =>
    let next := inside.past (data ++ ['-', '-', '>']) after
    (draft.moveTo next).add (.comment ⟨opening.span.start, next.offset⟩ (String.ofList data))
  | _ => (draft.moveTo inside.toEnd).note [⟨.unexpectedEnd .commentEnd, inside.token.span⟩]

/-- Read an element: the whole of one without markup inside, the opening tag of any other. -/
def readElement (draft : Draft) : Draft :=
  let opening := openTag draft.cursor
  match opening.value with
  | none => (draft.moveTo opening.next).note opening.faults
  | some tag =>
    let unknown : List Fault :=
      if isUnknownSpecial tag.name then
        [⟨.invalidTagName tag.name, ⟨tag.start, tag.start + 1 + Text.bytes tag.name.toList⟩⟩]
      else []
    let draft := (draft.moveTo opening.next).note (opening.faults ++ unknown)
    let entry : OpenElement := ⟨tag, Role.ofName tag.name tag.selfClosing, []⟩
    let isPlain := entry.role = .element tag.name tag.selfClosing
    if tag.selfClosing ∨ (isPlain ∧ isVoid tag.name) then
      draft.add (entry.node opening.next.offset)
    else if hasRawContent tag.name then
      let (span, content, place) := rawContent opening.next tag.name
      let closing := closingTag place tag.name
      let children : List Node :=
        if content.isEmpty then [] else [.text span (String.ofList content)]
      ((draft.moveTo closing.next).note closing.faults).add
        ({ entry with children }.node closing.next.offset)
    else if hasTextContent tag.name then
      let content := textContent tag.name opening.next
      let closing := closingTag content.next tag.name
      ((draft.moveTo closing.next).note (content.faults ++ closing.faults)).add
        ({ entry with children := content.value.reverse }.node closing.next.offset)
    else draft.enter (.element entry)

/-- Read a closing tag that closes nothing. -/
def readStrayClosing (draft : Draft) : Draft :=
  let cursor := draft.cursor
  let name := cursor.tagName?
  let place := if name.isSome then cursor.bump.bump else cursor.bump
  (draft.moveTo (place.skip .tagEnd)).note
    [⟨.unexpectedClosingTag (name.getD ""), cursor.token.span⟩]

/-- Read the construct in braces whose opening is the first token; if it is not closed, everything
that follows is skipped. -/
def readBraced (draft : Draft) (use : Braced → Draft → Draft) : Draft :=
  match draft.cursor.braced? with
  | none => (draft.moveTo draft.cursor.toEnd).note [draft.cursor.unclosedBrace]
  | some braced => use braced (draft.moveTo braced.next)

/-- The text of a construct in braces, as it stands in the source. -/
def bracedText (cursor : Cursor) (braced : Braced) : String :=
  String.ofList (cursor.token.text ++ braced.inner ++ ['\x7d'])

/-- Read the opening tag of a block. -/
def readBlock (draft : Draft) : Draft :=
  draft.readBraced fun braced draft =>
    let (keyword, header) := braced.withKeyword
    match BlockKind.ofKeyword? keyword with
    | none => draft.note [⟨.unknownBlock keyword, braced.span⟩]
    | some kind => draft.enter (.block ⟨kind, header, .body, draft.cursor.offset, []⟩)

/-- Read a special tag. -/
def readSpecialTag (draft : Draft) : Draft :=
  draft.readBraced fun braced draft =>
    let (keyword, embedded) := braced.withKeyword
    match SpecialTag.ofKeyword? keyword with
    | none => draft.note [⟨.unknownTag keyword, braced.span⟩]
    | some kind => draft.add (.tag kind embedded)

/-- Read an expression. -/
def readExpression (draft : Draft) : Draft :=
  draft.readBraced fun braced draft => draft.add (.expression braced.embedded)

/-- Read a tag that would continue or end a block, outside of one. -/
def readStrayBraced (draft : Draft) : Draft :=
  let cursor := draft.cursor
  draft.readBraced fun braced draft =>
    draft.note [⟨.outsideBlock (bracedText cursor braced), cursor.token.span⟩]

/-- Read one construct that is not text. -/
def readNode (draft : Draft) : Draft :=
  match draft.cursor.token.kind with
  | .commentOpen => draft.readComment
  | .tagOpen => draft.readElement
  | .closingOpen => draft.readStrayClosing
  | .blockOpen => draft.readBlock
  | .specialOpen => draft.readSpecialTag
  | .braceOpen => draft.readExpression
  | .blockNext => draft.readStrayBraced
  | .blockEnd => draft.readStrayBraced
  | _ => draft.moveTo draft.cursor.bump

/-- Read a script at top level; only the first of each context counts. -/
def readScript (draft : Draft) : Draft :=
  let reading := rawElement draft.cursor
  let next := (draft.moveTo reading.next).note reading.faults
  match reading.value with
  | none => next
  | some raw =>
    let script := Script.ofRaw raw
    let again : List Fault := [⟨.duplicate "script", draft.cursor.token.span⟩]
    match script.context with
    | .perModule =>
      if draft.moduleScript.isSome then next.note again
      else { next with moduleScript := some script }
    | .perInstance =>
      if draft.instanceScript.isSome then next.note again
      else { next with instanceScript := some script }

/-- Read a style at top level; only the first counts. -/
def readStyle (draft : Draft) : Draft :=
  let reading := rawElement draft.cursor
  let next := (draft.moveTo reading.next).note reading.faults
  match reading.value with
  | none => next
  | some raw =>
    if draft.style.isSome then next.note [⟨.duplicate "style", draft.cursor.token.span⟩]
    else { next with style := some (Style.ofRaw raw) }

/-- Read one construct that is not text at top level, where scripts and styles stand apart. -/
def readTop (draft : Draft) : Draft :=
  if draft.cursor.token.kind = .tagOpen then
    match draft.cursor.tagName? with
    | some "script" => draft.readScript
    | some "style" => draft.readStyle
    | _ => draft.readNode
  else draft.readNode

/-- The first token opens a tag that closes the innermost open element. -/
def atSibling (draft : Draft) : Bool :=
  draft.cursor.token.kind == .tagOpen &&
    draft.cursor.tagName?.any (closesSibling · draft.scopes)

/-- The first token opens a closing tag that closes an element around the innermost one. -/
def atOuterClosing (draft : Draft) : Bool :=
  draft.cursor.token.kind == .closingOpen &&
    draft.cursor.tagName?.any (closesAround · draft.scopes)

/-- Close the innermost open element: at once where another tag closes it, by its own closing tag
otherwise. -/
def closeElement (draft : Draft) (entry : OpenElement) (outer : List Opened) : Draft :=
  if draft.atSibling || draft.atOuterClosing then
    draft.leave outer (entry.node draft.cursor.offset)
  else
    let closing := closingTag draft.cursor entry.tag.name
    ((draft.moveTo closing.next).note closing.faults).leave outer (entry.node closing.next.offset)

/-- An element closed by what comes next is left where the draft stands, and nothing is read. -/
theorem closeElement_of_implied {draft : Draft}
    (implied : (draft.atSibling || draft.atOuterClosing) = true) (entry : OpenElement)
    (outer : List Opened) :
    draft.closeElement entry outer = draft.leave outer (entry.node draft.cursor.offset) := by
  rw [closeElement, if_pos implied]

/-- An element that is not closed by what comes next is left behind its own closing tag, whose
faults are noted. -/
theorem closeElement_of_not_implied {draft : Draft}
    (own : (draft.atSibling || draft.atOuterClosing) = false) (entry : OpenElement)
    (outer : List Opened) :
    draft.closeElement entry outer =
      ((draft.moveTo (closingTag draft.cursor entry.tag.name).next).note
        (closingTag draft.cursor entry.tag.name).faults).leave outer
          (entry.node (closingTag draft.cursor entry.tag.name).next.offset) := by
  rw [closeElement, if_neg (own ▸ Bool.false_ne_true)]

/-- Leave a block that is not ended. -/
def abandonBlock (draft : Draft) (entry : OpenBlock) (outer : List Opened) : Draft :=
  let place := draft.cursor
  (draft.note [⟨.unclosedBlock entry.kind, place.token.span⟩]).leave outer
    (entry.node place.offset place.offset)

/-- Go on with the next part of a block. A part that the block does not take is read and dropped. -/
def continueBlock (draft : Draft) (entry : OpenBlock) (outer : List Opened) : Draft :=
  let place := draft.cursor
  match place.braced? with
  | none =>
    let stop := place.toEnd
    ((draft.moveTo stop).note
      [place.unclosedBrace, ⟨.unclosedBlock entry.kind, Span.empty stop.offset⟩]).leave outer
        (entry.node place.offset stop.offset)
  | some braced =>
    let (body, branches) := entry.parts place.offset
    let next (branch : Option BranchStart) : Opened :=
      .block
        { entry with part := .later body branches branch, start := braced.next.offset, nodes := [] }
    match (branchHeader braced).filter (entry.kind.accepts ·.1) with
    | some (kind, code) =>
      { draft.moveTo braced.next with
        opened := next (some ⟨braced.span.start, kind, code⟩) :: outer }
    | none =>
      { (draft.moveTo braced.next).note
          [⟨.wrongBranch (bracedText place braced) entry.kind, braced.span⟩] with
        opened := next none :: outer }

/-- End a block by the ending tag that is the first token. -/
def endBlock (draft : Draft) (entry : OpenBlock) (outer : List Opened) : Draft :=
  let place := draft.cursor
  match place.braced? with
  | none =>
    let stop := place.toEnd
    ((draft.moveTo stop).note [place.unclosedBrace]).leave outer
      (entry.node place.offset stop.offset)
  | some braced =>
    let name := String.ofList (Text.trim braced.inner)
    let wrong : List Fault :=
      if name = entry.kind.keyword then []
      else [⟨.wrongBlockEnd entry.kind name, place.token.span⟩]
    ((draft.moveTo braced.next).note wrong).leave outer
      (entry.node place.offset braced.next.offset)

/-- Read a run of text. -/
def readText (draft : Draft) (text rest : Text) : Draft :=
  let next := draft.cursor.past text rest
  (draft.moveTo next).add (.text ⟨draft.cursor.offset, next.offset⟩ (String.ofList text))

/-- The draft after the next step, unless everything has been read and closed. -/
def step (draft : Draft) : Option Draft :=
  let text := draft.cursor.rest.takeWhile isTextChar
  if text.isEmpty then
    match draft.opened with
    | [] =>
      match draft.cursor.token.kind with
      | .endOfFile => none
      | _ => some draft.readTop
    | .element entry :: outer =>
      match draft.cursor.token.kind with
      | .endOfFile | .closingOpen => some (draft.closeElement entry outer)
      | _ => if draft.atSibling then some (draft.closeElement entry outer) else some draft.readNode
    | .block entry :: outer =>
      match draft.cursor.token.kind with
      | .endOfFile | .closingOpen => some (draft.abandonBlock entry outer)
      | .blockNext => some (draft.continueBlock entry outer)
      | .blockEnd => some (draft.endBlock entry outer)
      | _ => some draft.readNode
  else some (draft.readText text (draft.cursor.rest.dropWhile isTextChar))

end Draft

/-- Reading a closing tag never goes back. -/
theorem closingTag_le (cursor : Cursor) (name : String) :
    (closingTag cursor name).next.le cursor := by
  unfold closingTag
  simp only
  split
  · split
    · exact Cursor.le_trans (Cursor.expect_le _ _)
        (Cursor.le_trans (Cursor.bump_le _) (Cursor.bump_le _))
    · exact Cursor.le_refl _
  · exact Cursor.le_refl _

/-- Taking the content of a raw element never goes back. -/
theorem rawContent_le (cursor : Cursor) (name : String) :
    (rawContent cursor name).2.2.le cursor :=
  Text.length_spanUntil_le _ _

/-- Reading the text of a text area never goes back. -/
theorem textContent_le (name : String) (cursor : Cursor) :
    (textContent name cursor).next.le cursor := by
  fun_induction textContent name cursor with
  | case1 => exact Nat.zero_le _
  | case2 =>
    rename_i less _ ih
    exact Nat.le_of_lt (Nat.lt_of_le_of_lt ih less)
  | case3 => exact Text.length_spanUntil_le _ _

/-- A raw element takes at least one character. -/
theorem rawElement_lt {cursor : Cursor} (more : cursor.token.kind ≠ .endOfFile) :
    (rawElement cursor).next.lt cursor := by
  refine Cursor.lt_of_le_of_lt ?_ (openTag_lt more)
  unfold rawElement
  simp only
  split
  · exact Cursor.le_refl _
  · split
    · exact Cursor.le_refl _
    · exact Cursor.le_trans (closingTag_le _ _) (rawContent_le _ _)

namespace Draft

/-- A comment takes at least one character. -/
theorem readComment_lt {draft : Draft} (more : draft.cursor.token.kind ≠ .endOfFile) :
    draft.readComment.cursor.lt draft.cursor := by
  refine Cursor.lt_of_le_of_lt ?_ (Cursor.bump_lt more)
  have shorter := Text.length_spanUntil_le (Text.startsWith ['-', '-', '>']) draft.cursor.bump.rest
  unfold readComment
  simp only
  split
  case h_1 after same =>
    rw [same] at shorter
    simp only [cursor_add, cursor_moveTo, Cursor.le, Cursor.past]
    simp only [List.length_cons] at shorter
    omega
  case h_2 => exact Cursor.toEnd_le _

/-- Entering or adding an element takes at least one character. -/
theorem readElement_lt {draft : Draft} (more : draft.cursor.token.kind ≠ .endOfFile) :
    draft.readElement.cursor.lt draft.cursor := by
  refine Cursor.lt_of_le_of_lt ?_ (openTag_lt more)
  unfold readElement
  simp only
  split
  · exact Cursor.le_refl _
  · split
    · simp only [cursor_add, cursor_note, cursor_moveTo]
      exact Cursor.le_refl _
    · split
      · simp only [cursor_add, cursor_note, cursor_moveTo]
        exact Cursor.le_trans (closingTag_le _ _) (rawContent_le _ _)
      · split
        · simp only [cursor_add, cursor_note, cursor_moveTo]
          exact Cursor.le_trans (closingTag_le _ _) (textContent_le _ _)
        · simp only [cursor_enter, cursor_note, cursor_moveTo]
          exact Cursor.le_refl _

/-- A stray closing tag takes at least one character. -/
theorem readStrayClosing_lt {draft : Draft} (more : draft.cursor.token.kind ≠ .endOfFile) :
    draft.readStrayClosing.cursor.lt draft.cursor := by
  refine Cursor.lt_of_le_of_lt ?_ (Cursor.bump_lt more)
  unfold readStrayClosing
  simp only [cursor_note, cursor_moveTo]
  refine Cursor.le_trans (Cursor.skip_le _ _) ?_
  split
  · exact Cursor.bump_le _
  · exact Cursor.le_refl _

/-- What is made of a construct in braces moves on if making it does not move back. -/
theorem readBraced_lt {draft : Draft} {use : Braced → Draft → Draft}
    (more : draft.cursor.token.kind ≠ .endOfFile)
    (stays : ∀ braced draft, (use braced draft).cursor = draft.cursor) :
    (draft.readBraced use).cursor.lt draft.cursor := by
  unfold readBraced
  split
  · exact toEnd_lt more
  · next found =>
    rw [stays, cursor_moveTo]
    exact Cursor.braced?_lt found

/-- Reading a construct moves on. -/
theorem readNode_lt {draft : Draft} (more : draft.cursor.token.kind ≠ .endOfFile) :
    draft.readNode.cursor.lt draft.cursor := by
  unfold readNode
  split
  · exact readComment_lt more
  · exact readElement_lt more
  · exact readStrayClosing_lt more
  · refine readBraced_lt more fun braced draft => ?_
    simp only
    split <;> simp
  · refine readBraced_lt more fun braced draft => ?_
    simp only
    split <;> simp
  · exact readBraced_lt more fun braced draft => by simp
  · exact readBraced_lt more fun braced draft => by simp
  · exact readBraced_lt more fun braced draft => by simp
  · exact Cursor.bump_lt more

/-- A script takes at least one character, kept or not. -/
theorem readScript_lt {draft : Draft} (more : draft.cursor.token.kind ≠ .endOfFile) :
    draft.readScript.cursor.lt draft.cursor := by
  refine Eq.subst (motive := fun place : Cursor => place.lt draft.cursor) ?_ (rawElement_lt more)
  unfold readScript
  simp only
  repeat' split
  all_goals simp

/-- A style takes at least one character, kept or not. -/
theorem readStyle_lt {draft : Draft} (more : draft.cursor.token.kind ≠ .endOfFile) :
    draft.readStyle.cursor.lt draft.cursor := by
  refine Eq.subst (motive := fun place : Cursor => place.lt draft.cursor) ?_ (rawElement_lt more)
  unfold readStyle
  simp only
  repeat' split
  all_goals simp

/-- At the top level every step takes at least one character. -/
theorem readTop_lt {draft : Draft} (more : draft.cursor.token.kind ≠ .endOfFile) :
    draft.readTop.cursor.lt draft.cursor := by
  unfold readTop
  split
  · split
    · exact readScript_lt more
    · exact readStyle_lt more
    · exact readNode_lt more
  · exact readNode_lt more

/-- Closing an element never goes back, and leaves the levels around it open. -/
theorem closeElement_le (draft : Draft) (entry : OpenElement) (outer : List Opened) :
    (draft.closeElement entry outer).cursor.le draft.cursor ∧
      (draft.closeElement entry outer).opened.length = outer.length := by
  unfold closeElement
  split
  · simp [Cursor.le_refl]
  · simpa using closingTag_le _ _

/-- Going on to the next branch of a block takes at least one character. -/
theorem continueBlock_lt {draft : Draft} (entry : OpenBlock) (outer : List Opened)
    (more : draft.cursor.token.kind ≠ .endOfFile) :
    (draft.continueBlock entry outer).cursor.lt draft.cursor := by
  unfold continueBlock
  simp only
  split
  · simp only [cursor_leave, cursor_note, cursor_moveTo]
    exact toEnd_lt more
  · next found =>
    split
    · exact Cursor.braced?_lt found
    · exact Cursor.braced?_lt found

/-- Ending a block takes at least one character. -/
theorem endBlock_lt {draft : Draft} (entry : OpenBlock) (outer : List Opened)
    (more : draft.cursor.token.kind ≠ .endOfFile) :
    (draft.endBlock entry outer).cursor.lt draft.cursor := by
  unfold endBlock
  simp only
  split
  · simp only [cursor_leave, cursor_note, cursor_moveTo]
    exact toEnd_lt more
  · next found =>
    simp only [cursor_leave, cursor_note, cursor_moveTo]
    exact Cursor.braced?_lt found

/-- The draft is closer to its end than another: less is left to read, or no more is and fewer
elements and blocks are open. -/
def Nearer (next draft : Draft) : Prop :=
  next.cursor.lt draft.cursor ∨
    (next.cursor.le draft.cursor ∧ next.opened.length < draft.opened.length)

/-- A draft that is nearer the end is below the other one in the order the reading runs down. -/
theorem Nearer.lex {next draft : Draft} (nearer : next.Nearer draft) :
    Prod.Lex (· < ·) (· < ·) (next.cursor.rest.length, next.opened.length)
      (draft.cursor.rest.length, draft.opened.length) := by
  rcases nearer with less | ⟨noMore, fewer⟩
  · exact .left _ _ less
  · rcases Nat.lt_or_eq_of_le noMore with less | same
    · exact .left _ _ less
    · rw [same]
      exact .right _ fewer

/-- What a step can do. Where text stands it is read; elsewhere the next token and the construct that
was opened last settle what is read or closed. -/
inductive Steps (draft : Draft) : Draft → Prop where
  | text (someText : draft.cursor.rest.takeWhile isTextChar ≠ []) :
      Steps draft (draft.readText (draft.cursor.rest.takeWhile isTextChar)
        (draft.cursor.rest.dropWhile isTextChar))
  | top (noText : draft.cursor.rest.takeWhile isTextChar = []) (isOpen : draft.opened = [])
      (more : draft.cursor.token.kind ≠ .endOfFile) : Steps draft draft.readTop
  | close {entry : OpenElement} {outer : List Opened}
      (noText : draft.cursor.rest.takeWhile isTextChar = [])
      (isOpen : draft.opened = .element entry :: outer)
      (ends : draft.cursor.token.kind = .endOfFile ∨ draft.cursor.token.kind = .closingOpen ∨
        draft.atSibling = true) : Steps draft (draft.closeElement entry outer)
  | child {entry : OpenElement} {outer : List Opened}
      (noText : draft.cursor.rest.takeWhile isTextChar = [])
      (isOpen : draft.opened = .element entry :: outer)
      (more : draft.cursor.token.kind ≠ .endOfFile)
      (notClosing : draft.cursor.token.kind ≠ .closingOpen) (noSibling : draft.atSibling ≠ true) :
      Steps draft draft.readNode
  | abandon {entry : OpenBlock} {outer : List Opened}
      (noText : draft.cursor.rest.takeWhile isTextChar = [])
      (isOpen : draft.opened = .block entry :: outer)
      (ends : draft.cursor.token.kind = .endOfFile ∨ draft.cursor.token.kind = .closingOpen) :
      Steps draft (draft.abandonBlock entry outer)
  | branch {entry : OpenBlock} {outer : List Opened}
      (noText : draft.cursor.rest.takeWhile isTextChar = [])
      (isOpen : draft.opened = .block entry :: outer)
      (opens : draft.cursor.token.kind = .blockNext) : Steps draft (draft.continueBlock entry outer)
  | finish {entry : OpenBlock} {outer : List Opened}
      (noText : draft.cursor.rest.takeWhile isTextChar = [])
      (isOpen : draft.opened = .block entry :: outer)
      (opens : draft.cursor.token.kind = .blockEnd) : Steps draft (draft.endBlock entry outer)
  | inner {entry : OpenBlock} {outer : List Opened}
      (noText : draft.cursor.rest.takeWhile isTextChar = [])
      (isOpen : draft.opened = .block entry :: outer)
      (more : draft.cursor.token.kind ≠ .endOfFile)
      (notClosing : draft.cursor.token.kind ≠ .closingOpen)
      (notNext : draft.cursor.token.kind ≠ .blockNext)
      (notEnd : draft.cursor.token.kind ≠ .blockEnd) : Steps draft draft.readNode

/-- What the step function does is one of the kinds of step. -/
theorem steps_of_step {draft next : Draft} (stepped : draft.step = some next) :
    draft.Steps next := by
  unfold step at stepped
  simp only at stepped
  split at stepped
  case isFalse someText =>
    exact Option.some.inj stepped ▸ .text (mt List.isEmpty_iff.mpr someText)
  case isTrue none =>
    have noText := List.isEmpty_iff.mp none
    split at stepped
    case h_1 isOpen =>
      split at stepped
      case h_1 => cases stepped
      case h_2 more => exact Option.some.inj stepped ▸ .top noText isOpen more
    case h_2 entry outer isOpen =>
      split at stepped
      case h_1 ended => exact Option.some.inj stepped ▸ .close noText isOpen (.inl ended)
      case h_2 closing => exact Option.some.inj stepped ▸ .close noText isOpen (.inr (.inl closing))
      case h_3 more notClosing =>
        split at stepped
        case isTrue sibling =>
          exact Option.some.inj stepped ▸ .close noText isOpen (.inr (.inr sibling))
        case isFalse noSibling =>
          exact Option.some.inj stepped ▸ .child noText isOpen more notClosing noSibling
    case h_3 entry outer isOpen =>
      split at stepped
      case h_1 ended => exact Option.some.inj stepped ▸ .abandon noText isOpen (.inl ended)
      case h_2 closing => exact Option.some.inj stepped ▸ .abandon noText isOpen (.inr closing)
      case h_3 opens => exact Option.some.inj stepped ▸ .branch noText isOpen opens
      case h_4 opens => exact Option.some.inj stepped ▸ .finish noText isOpen opens
      case h_5 more notClosing notNext notEnd =>
        exact Option.some.inj stepped ▸ .inner noText isOpen more notClosing notNext notEnd

/-- Every kind of step is what the step function does. -/
theorem Steps.step {draft next : Draft} (steps : draft.Steps next) : draft.step = some next := by
  unfold Draft.step
  cases steps with
  | text someText => simp only [List.isEmpty_eq_false_iff.mpr someText, Bool.false_eq_true, ↓reduceIte]
  | top noText isOpen more => simp only [noText, List.isEmpty_nil, ↓reduceIte, isOpen]
  | close noText isOpen ends =>
    simp only [noText, List.isEmpty_nil, ↓reduceIte, isOpen]
    rcases ends with ended | closing | sibling
    · simp only [ended]
    · simp only [closing]
    · simp only [sibling, ↓reduceIte]
      split <;> rfl
  | child noText isOpen more notClosing noSibling =>
    simp only [noText, List.isEmpty_nil, ↓reduceIte, isOpen]
    rw [if_neg noSibling]
  | abandon noText isOpen ends =>
    simp only [noText, List.isEmpty_nil, ↓reduceIte, isOpen]
    rcases ends with ended | closing
    · simp only [ended]
    · simp only [closing]
  | branch noText isOpen opens | finish noText isOpen opens =>
    simp only [noText, List.isEmpty_nil, ↓reduceIte, isOpen, opens]
  | inner noText isOpen more notClosing notNext notEnd =>
    simp only [noText, List.isEmpty_nil, ↓reduceIte, isOpen]

/-- The steps that are taken are those that can be. -/
theorem step_eq_some_iff {draft next : Draft} : draft.step = some next ↔ draft.Steps next :=
  ⟨steps_of_step, Steps.step⟩

/-- Every step brings the draft closer to its end. -/
theorem step_nearer {draft next : Draft} (stepped : draft.step = some next) :
    next.Nearer draft := by
  cases step_eq_some_iff.mp stepped with
  | text someText =>
    have joined := congrArg List.length
      (List.takeWhile_append_dropWhile (p := isTextChar) (l := draft.cursor.rest))
    have counted := List.length_pos_iff.mpr someText
    left
    rw [List.length_append] at joined
    simp only [readText, cursor_add, cursor_moveTo, Cursor.lt, Cursor.past]
    omega
  | top _ _ more => exact .inl (readTop_lt more)
  | @close entry outer _ isOpen =>
    obtain ⟨noMore, fewer⟩ := closeElement_le draft entry outer
    refine .inr ⟨noMore, ?_⟩
    rw [fewer, isOpen]
    exact Nat.lt_succ_self _
  | child _ _ more | inner _ _ more => exact .inl (readNode_lt more)
  | abandon _ isOpen => exact .inr ⟨by simp [abandonBlock, Cursor.le_refl], by simp [abandonBlock, isOpen]⟩
  | @branch entry outer _ _ opens => exact .inl (continueBlock_lt entry outer (by simp [opens]))
  | @finish entry outer _ _ opens => exact .inl (endBlock_lt entry outer (by simp [opens]))

/-- The draft after all steps. -/
def run (draft : Draft) : Draft :=
  match _ : draft.step with
  | none => draft
  | some next => next.run
termination_by (draft.cursor.rest.length, draft.opened.length)
decreasing_by
  have stepped : draft.step = some next := by assumption
  exact (step_nearer stepped).lex

/-- The document that a draft holds when all of the source has been read. -/
def document (draft : Draft) (source : Text) : Document where
  moduleScript := draft.moduleScript
  instanceScript := draft.instanceScript
  style := draft.style
  template := ⟨draft.nodes.reverse, ⟨0, source.bytes⟩⟩

end Draft

/-- The document that a source holds, and the faults found in reading it, in order. -/
def read (source : Text) : Document × List Fault :=
  let draft := (Draft.start source).run
  (draft.document source, draft.faults.reverse)

/-- The document that a source holds, or its faults if there are any. -/
def read? (source : Text) : Except (List Fault) Document :=
  match read source with
  | (document, []) => .ok document
  | (_, faults) => .error faults

/-- A document that is given out is the one read, and reading it noted no fault. -/
theorem read_eq_of_read? {source : Text} {document : Document}
    (done : read? source = .ok document) : read source = (document, []) := by
  unfold read? at done
  split at done
  case h_1 same => rw [same, Except.ok.inj done]
  case h_2 => cases done

/-- Faults that are given out are those noted, and there is one at least. -/
theorem faults_eq_of_read? {source : Text} {faults : List Fault}
    (unread : read? source = .error faults) : (read source).2 = faults ∧ faults ≠ [] := by
  unfold read? at unread
  split at unread
  case h_1 => cases unread
  case h_2 some same => exact Except.error.inj unread ▸ ⟨congrArg Prod.snd same, some⟩

end ClassHoist.Markup
