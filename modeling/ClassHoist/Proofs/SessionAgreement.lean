import ClassHoist.Markup.Session
import ClassHoist.Proofs.Elements
import ClassHoist.Proofs.FeedContentAgreement
import ClassHoist.Proofs.Tiling
import ClassHoist.Proofs.TopLevel

/-! # Sessions at places of a source

The session with the tokens behind a draft does what the draft does, step by step
(`Draft.step_session`). So for every source no cut fails and every loop moves on, and the session holds
the document of the source and its faults in the end (`readFed_eq`).
-/

namespace ClassHoist.Markup

/-- The session with the tokens that follow the draft. -/
def Draft.session (draft : Draft) : Session := ⟨draft.cursor.tokens, draft⟩

variable {source : Text} {draft : Draft}

namespace Draft

/-- The session in the beginning is the one of the empty draft. -/
theorem session_start (source : Text) : (start source).session = Session.start source := rfl

@[simp] theorem draft_session (draft : Draft) : draft.session.draft = draft := rfl

@[simp] theorem feed_session (draft : Draft) : draft.session.feed = draft.cursor.feed := rfl

/-- A session follows a feed at a place and is the session of the draft moved there. -/
theorem follow_session {cursor : Cursor} (draft : Draft) (within : cursor.In source)
    (faults : List Fault) : draft.session.follow source cursor.feed faults =
      some ((draft.moveTo cursor).note faults).session := by
  simp only [Session.follow, Cursor.offset_feed, within.cutFrom, Option.bind_eq_bind,
    Option.bind_some, Option.pure_def]
  rfl

/-- What has been read changes, and the place does not. -/
theorem map_session {change : Draft → Draft}
    (same : (change draft).cursor = draft.cursor) :
    draft.session.map change = (change draft).session := by
  rw [Session.map, session, session, same]

/-- Adding a node leaves the tokens. -/
theorem map_add (draft : Draft) (node : Node) :
    draft.session.map (·.add node) = (draft.add node).session :=
  map_session (cursor_add draft node)

/-- Leaving an element or block leaves the tokens. -/
theorem map_leave (draft : Draft) (outer : List Opened) (node : Node) :
    draft.session.map (·.leave outer node) = (draft.leave outer node).session :=
  map_session (cursor_leave draft outer node)

/-- Opening a block of what was read in braces does not move the place. -/
theorem cursor_takeBlock (read : String × Embedded) (draft : Draft) :
    (draft.takeBlock read).cursor = draft.cursor := by
  unfold takeBlock
  split <;> rfl

/-- Adding a special tag of what was read in braces does not move the place. -/
theorem cursor_takeSpecialTag (read : String × Embedded) (draft : Draft) :
    (draft.takeSpecialTag read).cursor = draft.cursor := by
  unfold takeSpecialTag
  split
  · rfl
  · exact cursor_add _ _

/-- A session reads text as the draft does. -/
theorem readText_session (within : draft.cursor.In source) {text rest : Text}
    (split : draft.cursor.rest = text ++ rest) (seam : Seam text rest) :
    draft.session.readText source (draft.cursor.offset + text.bytes) =
      some (draft.readText text rest).session := by
  have found : cut source ⟨draft.cursor.offset, draft.cursor.offset + text.bytes⟩ = some text :=
    (within.stands split).slice?_eq
  simp only [Session.readText, feed_session, Cursor.offset_feed, found, Cursor.sync_feed split seam,
    follow_session draft (within.trans (Cursor.reaches_past split)), note_nil, map_add,
    Option.bind_eq_bind, Option.bind_some, Option.pure_def]
  rfl

/-- A session reads a comment as the draft does. -/
theorem readComment_session (within : draft.cursor.In source)
    (more : draft.cursor.token.kind ≠ .endOfFile) :
    draft.session.readComment source = some draft.readComment.session := by
  have inside : draft.cursor.bump.In source := within.trans (Cursor.reaches_bump _)
  have stop : draft.cursor.token.span.stop = draft.cursor.bump.offset := rfl
  have split := Text.spanUntil_append (Text.startsWith ['-', '-', '>']) draft.cursor.bump.rest
  obtain ⟨-, ends⟩ := quiet_spanUntil (Text.startsWith ['-', '-', '>']) draft.cursor.bump.rest
  unfold Session.readComment readComment
  simp only [feed_session, Cursor.token_feed, Cursor.bump_feed source more, stop, inside.cutFrom,
    Option.bind_eq_bind, Option.bind_some, Option.pure_def]
  generalize (Text.spanUntil (Text.startsWith ['-', '-', '>']) draft.cursor.bump.rest).1 = data
    at split
  generalize (Text.spanUntil (Text.startsWith ['-', '-', '>']) draft.cursor.bump.rest).2 = behind
    at split ends
  rcases ends with rfl | closes
  · simp only [List.isEmpty_nil, ↓reduceIte, Cursor.toEnd_feed inside]
    exact follow_session draft (inside.trans (Cursor.reaches_toEnd _)) _
  · obtain ⟨after, rfl⟩ := eq_append_of_startsWith closes
    have found : cut source ⟨draft.cursor.bump.offset, draft.cursor.bump.offset + Text.bytes data⟩ =
        some data := (inside.stands split.symm).slice?_eq
    have split' : draft.cursor.bump.rest = data ++ ['-', '-'] ++ ['>'] ++ after := by
      rw [← split]
      simp only [List.append_assoc, List.cons_append, List.nil_append]
    have place : draft.cursor.bump.offset + Text.bytes data + 3 =
        draft.cursor.bump.offset + Text.bytes (data ++ ['-', '-'] ++ ['>']) := by
      rw [Text.bytes_append, Text.bytes_append, Nat.add_assoc, Nat.add_assoc]
      rfl
    have follows := follow_session draft (inside.trans (Cursor.reaches_past split')) []
    simp only [List.cons_append, List.isEmpty_cons, Bool.false_eq_true, ↓reduceIte, found,
      Option.bind_some]
    rw [place, Cursor.sync_feed split' (.of_closing (.inl rfl) _ _), follows]
    simp only [Option.bind_some, note_nil, map_add]
    rw [List.append_assoc]
    rfl

/-- A session reads what follows an opening tag as the draft does. -/
theorem readBody_session (within : draft.cursor.In source) (tag : OpenTag) :
    draft.session.readBody source tag = some (draft.readBody tag).session := by
  unfold Session.readBody readBody
  cases bodyOf tag.name tag.selfClosing with
  | empty => exact congrArg some (map_add draft _)
  | raw =>
    have place := within.trans (rawContent_reaches draft.cursor tag.name)
    have behind := place.trans (closingTag_reaches (rawContent draft.cursor tag.name).2.2 tag.name)
    simp only [feed_session, Cursor.rawContent_feed within, Cursor.closingTag_feed place,
      Reading.intake, follow_session draft behind, map_add, Option.bind_eq_bind, Option.bind_some,
      Option.pure_def]
    rfl
  | text =>
    have place := within.trans (textContent_reaches tag.name draft.cursor)
    have behind := place.trans (closingTag_reaches (textContent tag.name draft.cursor).next tag.name)
    simp only [feed_session, Cursor.textContent_feed within, Reading.intake,
      Cursor.closingTag_feed place, follow_session draft behind, map_add, Option.bind_eq_bind,
      Option.bind_some, Option.pure_def]
    rfl
  | markup => rfl

/-- A session reads an element as the draft does. -/
theorem readElement_session (within : draft.cursor.In source)
    (more : draft.cursor.token.kind ≠ .endOfFile) :
    draft.session.readElement source = some draft.readElement.session := by
  have behind := within.trans (openTag_reaches draft.cursor)
  unfold Session.readElement
  simp only [feed_session, Cursor.openTag_feed within more, Reading.intake, Option.bind_eq_bind,
    Option.bind_some]
  cases read : (openTag draft.cursor).value with
  | none =>
    simp only [follow_session draft behind, readElement, read]
  | some tag =>
    simp only [follow_session draft behind, Option.bind_some]
    rw [readBody_session (by exact behind), readElement_eq read]

/-- A session passes over a stray closing tag as the draft does. -/
theorem readStrayClosing_session (within : draft.cursor.In source)
    (closing : draft.cursor.token.kind = .closingOpen) :
    draft.session.readStrayClosing source = some draft.readStrayClosing.session := by
  have more : draft.cursor.token.kind ≠ .endOfFile := by rw [closing]; decide
  have inside := within.trans (Cursor.reaches_bump draft.cursor)
  unfold Session.readStrayClosing readStrayClosing
  simp only [feed_session, Cursor.tagName?_feed within more, Cursor.bump_feed source more,
    Cursor.token_feed, Option.bind_eq_bind, Option.bind_some]
  cases named : draft.cursor.tagName? with
  | none =>
    simp only [Option.isSome_none, Bool.false_eq_true, ↓reduceIte,
      Cursor.skip_feed source _ (show TokenKind.tagEnd ≠ .endOfFile by decide)]
    exact follow_session draft (inside.trans (Cursor.reaches_skip _ _)) _
  | some name =>
    have more' : draft.cursor.bump.token.kind ≠ .endOfFile := by
      rw [Cursor.kind_of_tagName? named]
      decide
    simp only [Option.isSome_some, ↓reduceIte, Cursor.bump_feed source more',
      Cursor.skip_feed source _ (show TokenKind.tagEnd ≠ .endOfFile by decide)]
    exact follow_session draft
      ((inside.trans (Cursor.reaches_bump _)).trans (Cursor.reaches_skip _ _)) _

/-- A construct in braces is read from the tokens if it is used alike. -/
theorem readBraced_session (within : draft.cursor.In source)
    {use : Span × Span → Draft → Option Draft} {use' : Braced → Draft → Draft}
    (same : ∀ braced draft', draft.cursor.braced? = some braced →
      use (Cursor.bracedSpans braced) draft' = some (use' braced draft'))
    (stays : ∀ braced draft', (use' braced draft').cursor = draft'.cursor) :
    draft.session.readBraced source use = some (draft.readBraced use').session := by
  unfold Session.readBraced readBraced
  simp only [feed_session, Cursor.braced_feed within, Cursor.bracedReading, Option.bind_eq_bind,
    Option.bind_some, Option.pure_def]
  cases found : draft.cursor.braced? with
  | none =>
    simp only [follow_session draft (within.trans (Cursor.reaches_toEnd _)), Option.bind_some]
    rfl
  | some braced =>
    simp only [follow_session draft (within.trans (Cursor.reaches_braced? found)), Option.bind_some,
      note_nil, Option.map_some]
    simp only [session, same braced _ found, Option.bind_some, stays, cursor_moveTo]

/-- A session opens a block as the draft does. -/
theorem readBlock_session (within : draft.cursor.In source) :
    draft.session.readBlock source = some draft.readBlock.session := by
  have same : draft.readBlock =
      draft.readBraced fun braced draft => draft.takeBlock braced.withKeyword := rfl
  rw [same]
  apply readBraced_session within
  · intro braced draft' found
    simp only [cutWithKeyword_eq within found, Option.bind_eq_bind, Option.bind_some, Option.pure_def]
  · exact fun braced draft' => cursor_takeBlock _ draft'

/-- A session reads a special tag as the draft does. -/
theorem readSpecialTag_session (within : draft.cursor.In source) :
    draft.session.readSpecialTag source = some draft.readSpecialTag.session := by
  have same : draft.readSpecialTag =
      draft.readBraced fun braced draft => draft.takeSpecialTag braced.withKeyword := rfl
  rw [same]
  apply readBraced_session within
  · intro braced draft' found
    simp only [cutWithKeyword_eq within found, Option.bind_eq_bind, Option.bind_some, Option.pure_def]
  · exact fun braced draft' => cursor_takeSpecialTag _ draft'

/-- A session reads an expression as the draft does. -/
theorem readExpression_session (within : draft.cursor.In source) :
    draft.session.readExpression source = some draft.readExpression.session := by
  apply readBraced_session within
  · intro braced draft' found
    simp only [cutEmbedded_eq within found, Option.bind_eq_bind, Option.bind_some, Option.pure_def]
  · exact fun braced draft' => cursor_add draft' _

/-- A session passes over a construct in braces that stands alone as the draft does. -/
theorem readStrayBraced_session (within : draft.cursor.In source) :
    draft.session.readStrayBraced source = some draft.readStrayBraced.session := by
  unfold Session.readStrayBraced readStrayBraced
  apply readBraced_session within
  · intro braced draft' found
    simp only [Cursor.bracedSpans, cut_span within found, feed_session, Cursor.token_feed,
      Option.bind_eq_bind, Option.bind_some, Option.pure_def]
    rfl
  · exact fun braced draft' => rfl

/-- **One construct that is not text is read from the tokens**, as long as there is one. -/
theorem readNode_session (within : draft.cursor.In source)
    (more : draft.cursor.token.kind ≠ .endOfFile) :
    draft.session.readNode source = some draft.readNode.session := by
  unfold Session.readNode readNode
  rw [feed_session, Cursor.token_feed]
  cases isKind : draft.cursor.token.kind
  case endOfFile => exact absurd isKind more
  case commentOpen => exact readComment_session within more
  case tagOpen => exact readElement_session within more
  case closingOpen => exact readStrayClosing_session within isKind
  case blockOpen => exact readBlock_session within
  case specialOpen => exact readSpecialTag_session within
  case braceOpen => exact readExpression_session within
  case blockNext | blockEnd => exact readStrayBraced_session within
  all_goals
    simp only [Cursor.bump_feed source more]
    exact follow_session draft (within.trans (Cursor.reaches_bump _)) []

/-- A session reads a script or style as the draft does. -/
theorem readRaw_session (within : draft.cursor.In source)
    (more : draft.cursor.token.kind ≠ .endOfFile) {keep : RawElement → Span → Draft → Draft}
    (stays : ∀ raw span draft', (keep raw span draft').cursor = draft'.cursor) :
    draft.session.readRaw source keep = some (draft.readRaw keep).session := by
  have behind := within.trans (rawElement_reaches draft.cursor)
  unfold Session.readRaw readRaw
  simp only [feed_session, Cursor.rawElement_feed within more, Reading.intake, Cursor.token_feed,
    follow_session draft behind, Option.bind_eq_bind, Option.bind_some, Option.pure_def]
  cases (rawElement draft.cursor).value with
  | none => rfl
  | some raw => exact congrArg some (map_session (stays raw _ _))

/-- A session does the same at top level as the draft. -/
theorem readTop_session (within : draft.cursor.In source)
    (more : draft.cursor.token.kind ≠ .endOfFile) :
    draft.session.readTop source = some draft.readTop.session := by
  unfold Session.readTop readTop
  rw [feed_session, Cursor.token_feed]
  split
  case isTrue =>
    simp only [Cursor.tagName?_feed within more, Option.bind_eq_bind, Option.bind_some]
    split
    case isTrue isScript =>
      rw [isScript]
      exact readRaw_session within more cursor_keepScript
    case isFalse noScript =>
      split
      case isTrue isStyle =>
        rw [isStyle]
        exact readRaw_session within more cursor_keepStyle
      case isFalse noStyle =>
        split
        case h_1 isScript => exact absurd isScript noScript
        case h_2 isStyle => exact absurd isStyle noStyle
        case h_3 => exact readNode_session within more
  case isFalse => exact readNode_session within more

/-- A session sees a sibling that closes the element where the draft does. -/
theorem atSibling_session (within : draft.cursor.In source) :
    draft.session.atSibling source = some draft.atSibling := by
  unfold Session.atSibling atSibling
  rw [feed_session, Cursor.token_feed]
  by_cases opens : draft.cursor.token.kind = .tagOpen
  · simp only [opens, ↓reduceIte, Cursor.tagName?_feed within (by rw [opens]; decide),
      Option.bind_eq_bind, Option.bind_some, Option.pure_def, beq_self_eq_true, Bool.true_and]
    rfl
  · simp only [opens, ↓reduceIte, beq_eq_false_iff_ne.mpr opens, Bool.false_and, Option.pure_def]

/-- A session sees the closing tag of an outer element where the draft does. -/
theorem atOuterClosing_session (within : draft.cursor.In source) :
    draft.session.atOuterClosing source = some draft.atOuterClosing := by
  unfold Session.atOuterClosing atOuterClosing
  rw [feed_session, Cursor.token_feed]
  by_cases closes : draft.cursor.token.kind = .closingOpen
  · simp only [closes, ↓reduceIte, Cursor.tagName?_feed within (by rw [closes]; decide),
      Option.bind_eq_bind, Option.bind_some, Option.pure_def, beq_self_eq_true, Bool.true_and]
    rfl
  · simp only [closes, ↓reduceIte, beq_eq_false_iff_ne.mpr closes, Bool.false_and, Option.pure_def]

/-- A session closes an element as the draft does. -/
theorem closeElement_session (within : draft.cursor.In source) (entry : OpenElement)
    (outer : List Opened) :
    draft.session.closeElement source entry outer = some (draft.closeElement entry outer).session := by
  have behind := within.trans (closingTag_reaches draft.cursor entry.tag.name)
  unfold Session.closeElement closeElement
  simp only [atSibling_session within, atOuterClosing_session within, Option.bind_eq_bind,
    Option.bind_some, Option.pure_def]
  split
  · exact congrArg some (map_leave draft outer _)
  · simp only [feed_session, Cursor.closingTag_feed within, Reading.intake,
      follow_session draft behind, Option.bind_some, map_leave]
    rfl

/-- A session gives up a block as the draft does. -/
theorem abandonBlock_session (draft : Draft) (entry : OpenBlock) (outer : List Opened) :
    draft.session.abandonBlock source entry outer = (draft.abandonBlock entry outer).session := by
  unfold Session.abandonBlock abandonBlock
  simp only [feed_session, Cursor.token_feed]
  exact map_session (cursor_leave _ outer _)

/-- A session goes on with a block as the draft does. -/
theorem continueBlock_session (within : draft.cursor.In source) (entry : OpenBlock)
    (outer : List Opened) : draft.session.continueBlock source entry outer =
      some (draft.continueBlock entry outer).session := by
  unfold Session.continueBlock continueBlock
  simp only [feed_session, Cursor.braced_feed within, Cursor.bracedReading, Option.bind_eq_bind,
    Option.bind_some, Option.pure_def]
  cases found : draft.cursor.braced? with
  | none =>
    simp only [Option.map_none, Cursor.token_feed, Cursor.span_toEnd,
      follow_session draft (within.trans (Cursor.reaches_toEnd _)), Option.bind_some, map_leave]
    rfl
  | some braced =>
    have header : branchHeader braced = branchOf braced.withKeyword.1 braced.withKeyword.2 := rfl
    simp only [Option.map_some, follow_session draft (within.trans (Cursor.reaches_braced? found)),
      cutWithKeyword_eq within found, Option.bind_some, note_nil, header]
    cases (branchOf braced.withKeyword.1 braced.withKeyword.2).filter (entry.kind.accepts ·.1) with
    | some branch => rfl
    | none =>
      simp only [Cursor.bracedSpans, cut_span within found, Option.bind_some]
      rfl

/-- A session ends a block as the draft does. -/
theorem endBlock_session (within : draft.cursor.In source) (entry : OpenBlock)
    (outer : List Opened) : draft.session.endBlock source entry outer =
      some (draft.endBlock entry outer).session := by
  unfold Session.endBlock endBlock
  simp only [feed_session, Cursor.braced_feed within, Cursor.bracedReading, Option.bind_eq_bind,
    Option.bind_some, Option.pure_def, Cursor.token_feed]
  cases found : draft.cursor.braced? with
  | none =>
    simp only [Option.map_none, follow_session draft (within.trans (Cursor.reaches_toEnd _)),
      Option.bind_some, map_leave]
    rfl
  | some braced =>
    have inner : cut source (Cursor.bracedSpans braced).2 = _ := (inner_stands within found).slice?_eq
    simp only [Option.map_some, inner, Option.bind_some,
      follow_session draft (within.trans (Cursor.reaches_braced? found)), map_leave]
    rfl

/-- Between text and what follows it no token is torn. -/
theorem seam_of_text (text : Text) :
    Seam (text.takeWhile isTextChar) (text.dropWhile isTextChar) := by
  cases left : text.dropWhile isTextChar with
  | nil => exact .of_nil _
  | cons c rest =>
    have stops := head?_dropWhile text c (by rw [left]; rfl)
    exact .of_opening (isTextChar_eq_false stops) _ _

/-- **A turn is taken from the tokens** as it is from the text. -/
theorem turn_session (within : draft.cursor.In source)
    (noText : draft.cursor.rest.takeWhile isTextChar = []) :
    draft.session.turn source = some (draft.step.map session) := by
  unfold Session.turn step
  simp only [noText, List.isEmpty_nil, ↓reduceIte, feed_session, Cursor.token_feed, draft_session]
  cases isOpen : draft.opened with
  | nil =>
    cases isKind : draft.cursor.token.kind
    case endOfFile => rfl
    all_goals
      have more : draft.cursor.token.kind ≠ .endOfFile := by rw [isKind]; decide
      simp only [readTop_session within more, Option.map_some]
  | cons innermost outer =>
    cases innermost with
    | element entry =>
      have closed := closeElement_session within entry outer
      cases isKind : draft.cursor.token.kind
      case endOfFile | closingOpen => simp only [closed, Option.map_some]
      all_goals
        have more : draft.cursor.token.kind ≠ .endOfFile := by rw [isKind]; decide
        simp only [atSibling_session within, Option.bind_eq_bind, Option.bind_some, closed,
          readNode_session within more, Option.map_some]
        split <;> rfl
    | block entry =>
      cases isKind : draft.cursor.token.kind
      case endOfFile | closingOpen => simp only [abandonBlock_session, Option.map_some]
      case blockNext => simp only [continueBlock_session within, Option.map_some]
      case blockEnd => simp only [endBlock_session within, Option.map_some]
      all_goals
        have more : draft.cursor.token.kind ≠ .endOfFile := by rw [isKind]; decide
        simp only [readNode_session within more, Option.map_some]

/-- **A step is taken from the tokens** as it is from the text: no cut fails in it. -/
theorem step_session (within : draft.cursor.In source) :
    draft.session.step source = some (draft.step.map session) := by
  unfold Session.step
  simp only [feed_session, Cursor.offset_feed, within.cutFrom, Option.bind_eq_bind, Option.bind_some]
  split
  case isTrue noText => exact turn_session within (List.isEmpty_iff.mp noText)
  case isFalse someText =>
    have split : draft.cursor.rest = draft.cursor.rest.takeWhile isTextChar ++
        draft.cursor.rest.dropWhile isTextChar := List.takeWhile_append_dropWhile.symm
    rw [readText_session within split (seam_of_text _), step]
    simp only [someText, Bool.false_eq_true, ↓reduceIte, Option.map_some]

/-- All steps are taken from the tokens, and they come to an end. -/
theorem run_session (within : draft.cursor.In source) :
    draft.session.run source = some draft.run.session := by
  fun_induction run draft with
  | case1 draft ended =>
    rw [Session.run, step_session within, ended]
    rfl
  | case2 draft next stepped ih =>
    have nearer : next.session.draft.Nearer draft.session.draft := step_nearer stepped
    rw [Session.run, step_session within, stepped]
    simp only [Option.map_some, Option.bind_eq_bind, Option.bind_some, nearer, ↓reduceIte]
    exact ih (within.trans (step_reaches stepped))

end Draft

/-- **A source is read from its tokens as it is from its text.** For every source no cut is past the
end or inside a character, and the steps come to an end. -/
theorem readFed_eq (source : Text) : readFed source = some (read source) := by
  unfold readFed
  rw [← Draft.session_start, Draft.run_session (.refl _)]
  rfl

end ClassHoist.Markup
