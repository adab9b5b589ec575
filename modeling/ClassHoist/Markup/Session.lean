import ClassHoist.Markup.FeedContent

/-! # Reading a document from its tokens

A session is a draft with the list of the tokens that are left. It reads what the draft reads, from a
feed: by kinds and spans of tokens, and by text cut out of the source at byte offsets. Every cut can
fail, and so can the cut that tells what follows the offset reached (`Session.follow`); a loop fails
where it does not move on.
-/

namespace ClassHoist.Markup

/-- A document being read: the tokens that have not been passed, and what has been read. -/
structure Session where
  tokens : List Token
  draft : Draft

namespace Draft

/-- Take the opening tag of a block, given its keyword and the code after that. -/
def takeBlock (read : String × Embedded) (draft : Draft) : Draft :=
  match BlockKind.ofKeyword? read.1 with
  | none => draft.note [⟨.unknownBlock read.1, read.2.span⟩]
  | some kind => draft.enter (.block ⟨kind, read.2, .body, draft.cursor.offset, []⟩)

/-- Take a special tag, given its keyword and the code after that. -/
def takeSpecialTag (read : String × Embedded) (draft : Draft) : Draft :=
  match SpecialTag.ofKeyword? read.1 with
  | none => draft.note [⟨.unknownTag read.1, read.2.span⟩]
  | some kind => draft.add (.tag kind read.2)

/-- Go on with the next part of a block, whose last part ends at an offset. -/
def nextPart (entry : OpenBlock) (outer : List Opened) (stop : Nat) (branch : Option BranchStart)
    (draft : Draft) : Draft :=
  let (body, branches) := entry.parts stop
  { draft with
    opened := .block { entry with
      part := .later body branches branch, start := draft.cursor.offset, nodes := [] } :: outer }

end Draft

/-- The branch that a continuing tag starts, given its keyword and the code after that. -/
def branchOf (keyword : String) (embedded : Embedded) : Option (BranchKind × String) :=
  let after := embedded.code.toList
  if keyword = "else" then
    match Text.dropLead? ['i', 'f'] after with
    | some condition =>
      if condition.isEmpty || (condition.head?.map Text.isBlank).getD false then
        some (.otherwiseIf, String.ofList (Text.trim condition))
      else none
    | none => if after.isEmpty then some (.otherwise, "") else none
  else if keyword = "then" then some (.kept, embedded.code)
  else if keyword = "catch" then some (.broken, embedded.code)
  else none

namespace Session

/-- Nothing read yet. -/
def start (source : Text) : Session := ⟨Markup.tokens source, Draft.start source⟩

/-- The feed from which the session goes on. -/
def feed (session : Session) : Feed := ⟨session.tokens, session.draft.cursor.offset⟩

/-- Go on behind what was read from a feed, and note the faults in it. -/
def follow (source : Text) (session : Session) (feed : Feed) (faults : List Fault) :
    Option Session := do
  let rest ← cutFrom source feed.offset
  return ⟨feed.tokens, (session.draft.moveTo ⟨feed.offset, rest⟩).note faults⟩

/-- Change what has been read, at the same place. -/
def map (change : Draft → Draft) (session : Session) : Session :=
  ⟨session.tokens, change session.draft⟩

/-- Read the run of text from the offset up to another. -/
def readText (source : Text) (session : Session) (stop : Nat) : Option Session := do
  let span : Span := ⟨session.feed.offset, stop⟩
  let text ← cut source span
  let next ← session.follow source (session.feed.sync stop) []
  return next.map (·.add (.text span (String.ofList text)))

/-- Read a comment. -/
def readComment (source : Text) (session : Session) : Option Session := do
  let opening := (session.feed.token source).span
  let inside := session.feed.bump source
  let rest ← cutFrom source opening.stop
  let (front, behind) := Text.spanUntil (Text.startsWith ['-', '-', '>']) rest
  if behind.isEmpty then
    let fault : Fault := ⟨.unexpectedEnd .commentEnd, (inside.token source).span⟩
    session.follow source (inside.toEnd source) [fault]
  else
    let stop := opening.stop + front.bytes
    let data ← cut source ⟨opening.stop, stop⟩
    let next ← session.follow source (inside.sync (stop + 3)) []
    return next.map (·.add (.comment ⟨opening.start, stop + 3⟩ (String.ofList data)))

/-- Read what an element has for content, and its closing tag, or open the element. -/
def readBody (source : Text) (session : Session) (tag : OpenTag) : Option Session :=
  let entry : OpenElement := ⟨tag, Role.ofName tag.name tag.selfClosing, []⟩
  match bodyOf tag.name tag.selfClosing with
  | .empty => some (session.map (·.add (entry.node session.feed.offset)))
  | .raw => do
    let (span, content, place) ← session.feed.rawContent source tag.name
    let closing ← place.closingTag source tag.name
    let children : List Node :=
      if content.isEmpty then [] else [.text span (String.ofList content)]
    let next ← session.follow source closing.next closing.faults
    return next.map (·.add ({ entry with children }.node next.feed.offset))
  | .text => do
    let content ← session.feed.textContent source tag.name
    let closing ← content.next.closingTag source tag.name
    let next ← session.follow source closing.next (content.faults ++ closing.faults)
    return next.map
      (·.add ({ entry with children := content.value.reverse }.node next.feed.offset))
  | .markup => some (session.map (·.enter (.element entry)))

/-- Read an element: the whole of one without markup inside, the opening tag of any other. -/
def readElement (source : Text) (session : Session) : Option Session := do
  let opening ← session.feed.openTag source
  match opening.value with
  | none => session.follow source opening.next opening.faults
  | some tag =>
    let next ← session.follow source opening.next (opening.faults ++ Draft.unknownFaults tag)
    next.readBody source tag

/-- Read a closing tag that closes nothing. -/
def readStrayClosing (source : Text) (session : Session) : Option Session := do
  let feed := session.feed
  let name ← feed.tagName? source
  let behind := feed.bump source
  let place := if name.isSome then behind.bump source else behind
  session.follow source (place.skip source .tagEnd)
    [⟨.unexpectedClosingTag (name.getD ""), (feed.token source).span⟩]

/-- Read the construct in braces whose opening is the next token, and use its spans with and without
the braces; if it is not closed, everything that follows is skipped. -/
def readBraced (source : Text) (session : Session)
    (use : Span × Span → Draft → Option Draft) : Option Session := do
  let intake ← session.feed.braced source
  let next ← session.follow source intake.next intake.faults
  match intake.value with
  | none => return next
  | some spans => return ⟨next.tokens, ← use spans next.draft⟩

/-- Read the opening tag of a block. -/
def readBlock (source : Text) (session : Session) : Option Session :=
  session.readBraced source fun spans draft => do
    return draft.takeBlock (← cutWithKeyword source spans)

/-- Read a special tag. -/
def readSpecialTag (source : Text) (session : Session) : Option Session :=
  session.readBraced source fun spans draft => do
    return draft.takeSpecialTag (← cutWithKeyword source spans)

/-- Read an expression. -/
def readExpression (source : Text) (session : Session) : Option Session :=
  session.readBraced source fun spans draft => do
    return draft.add (.expression (← cutEmbedded source spans))

/-- Read a tag that would continue or end a block, outside of one. -/
def readStrayBraced (source : Text) (session : Session) : Option Session :=
  let place := (session.feed.token source).span
  session.readBraced source fun spans draft => do
    return draft.note [⟨.outsideBlock (String.ofList (← cut source spans.1)), place⟩]

/-- Read one construct that is not text. -/
def readNode (source : Text) (session : Session) : Option Session :=
  match (session.feed.token source).kind with
  | .commentOpen => session.readComment source
  | .tagOpen => session.readElement source
  | .closingOpen => session.readStrayClosing source
  | .blockOpen => session.readBlock source
  | .specialOpen => session.readSpecialTag source
  | .braceOpen => session.readExpression source
  | .blockNext => session.readStrayBraced source
  | .blockEnd => session.readStrayBraced source
  | _ => session.follow source (session.feed.bump source) []

/-- Read a script or style at top level, and keep it. -/
def readRaw (source : Text) (session : Session) (keep : RawElement → Span → Draft → Draft) :
    Option Session := do
  let reading ← session.feed.rawElement source
  let next ← session.follow source reading.next reading.faults
  match reading.value with
  | none => return next
  | some raw => return next.map (keep raw (session.feed.token source).span)

/-- Read one construct that is not text at top level. -/
def readTop (source : Text) (session : Session) : Option Session := do
  if (session.feed.token source).kind = .tagOpen then
    let name ← session.feed.tagName? source
    if name = some "script" then session.readRaw source Draft.keepScript
    else if name = some "style" then session.readRaw source Draft.keepStyle
    else session.readNode source
  else session.readNode source

/-- The next token opens a tag that closes the innermost open element. -/
def atSibling (source : Text) (session : Session) : Option Bool := do
  if (session.feed.token source).kind = .tagOpen then
    return (← session.feed.tagName? source).any (closesSibling · session.draft.scopes)
  else return false

/-- The next token opens a closing tag that closes an element around the innermost one. -/
def atOuterClosing (source : Text) (session : Session) : Option Bool := do
  if (session.feed.token source).kind = .closingOpen then
    return (← session.feed.tagName? source).any (closesAround · session.draft.scopes)
  else return false

/-- Close the innermost open element. -/
def closeElement (source : Text) (session : Session) (entry : OpenElement) (outer : List Opened) :
    Option Session := do
  if (← session.atSibling source) || (← session.atOuterClosing source) then
    return session.map (·.leave outer (entry.node session.feed.offset))
  else
    let closing ← session.feed.closingTag source entry.tag.name
    let next ← session.follow source closing.next closing.faults
    return next.map (·.leave outer (entry.node next.feed.offset))

/-- Leave a block that is not ended. -/
def abandonBlock (source : Text) (session : Session) (entry : OpenBlock) (outer : List Opened) :
    Session :=
  let fault : Fault := ⟨.unclosedBlock entry.kind, (session.feed.token source).span⟩
  session.map fun draft =>
    (draft.note [fault]).leave outer (entry.node session.feed.offset session.feed.offset)

/-- Go on with the next part of a block. -/
def continueBlock (source : Text) (session : Session) (entry : OpenBlock) (outer : List Opened) :
    Option Session := do
  let stop := session.feed.offset
  let intake ← session.feed.braced source
  match intake.value with
  | none =>
    let unclosed : Fault := ⟨.unclosedBlock entry.kind, (intake.next.token source).span⟩
    let next ← session.follow source intake.next (intake.faults ++ [unclosed])
    return next.map (·.leave outer (entry.node stop next.feed.offset))
  | some spans =>
    let next ← session.follow source intake.next intake.faults
    let (keyword, embedded) ← cutWithKeyword source spans
    match (branchOf keyword embedded).filter (entry.kind.accepts ·.1) with
    | some (kind, code) =>
      return next.map (·.nextPart entry outer stop (some ⟨spans.1.start, kind, code⟩))
    | none =>
      let tag ← cut source spans.1
      let wrong : Fault := ⟨.wrongBranch (String.ofList tag) entry.kind, spans.1⟩
      return next.map fun draft => (draft.note [wrong]).nextPart entry outer stop none

/-- End a block by the ending tag that is the next token. -/
def endBlock (source : Text) (session : Session) (entry : OpenBlock) (outer : List Opened) :
    Option Session := do
  let stop := session.feed.offset
  let intake ← session.feed.braced source
  match intake.value with
  | none =>
    let next ← session.follow source intake.next intake.faults
    return next.map (·.leave outer (entry.node stop next.feed.offset))
  | some spans =>
    let name := String.ofList (Text.trim (← cut source spans.2))
    let wrong : List Fault :=
      if name = entry.kind.keyword then []
      else [⟨.wrongBlockEnd entry.kind name, (session.feed.token source).span⟩]
    let next ← session.follow source intake.next wrong
    return next.map (·.leave outer (entry.node stop next.feed.offset))

/-- Read one construct, or leave the innermost element or block, where no text follows. There is
nothing more to do at the end of the source with nothing open. -/
def turn (source : Text) (session : Session) : Option (Option Session) :=
  let kind := (session.feed.token source).kind
  match session.draft.opened with
  | [] =>
    match kind with
    | .endOfFile => some none
    | _ => (session.readTop source).map some
  | .element entry :: outer =>
    match kind with
    | .endOfFile | .closingOpen => (session.closeElement source entry outer).map some
    | _ => do
      if ← session.atSibling source then (session.closeElement source entry outer).map some
      else (session.readNode source).map some
  | .block entry :: outer =>
    match kind with
    | .endOfFile | .closingOpen => some (some (session.abandonBlock source entry outer))
    | .blockNext => (session.continueBlock source entry outer).map some
    | .blockEnd => (session.endBlock source entry outer).map some
    | _ => (session.readNode source).map some

/-- The session after the next step, unless everything has been read and closed. -/
def step (source : Text) (session : Session) : Option (Option Session) := do
  let rest ← cutFrom source session.feed.offset
  let text := rest.takeWhile isTextChar
  if text.isEmpty then session.turn source
  else (session.readText source (session.feed.offset + Text.bytes text)).map some

end Session

instance (next draft : Draft) : Decidable (next.Nearer draft) :=
  inferInstanceAs (Decidable (next.cursor.rest.length < draft.cursor.rest.length ∨
    (next.cursor.rest.length ≤ draft.cursor.rest.length ∧
      next.opened.length < draft.opened.length)))

/-- The session after all steps. Each of them has to bring it closer to its end. -/
def Session.run (source : Text) (session : Session) : Option Session := do
  match ← session.step source with
  | none => return session
  | some next => if next.draft.Nearer session.draft then next.run source else none
termination_by (session.draft.cursor.rest.length, session.draft.opened.length)
decreasing_by
  have nearer : next.draft.Nearer session.draft := by assumption
  exact nearer.lex

/-- The document that a source holds, and the faults found in reading it, as they are read from its
tokens. -/
def readFed (source : Text) : Option (Document × List Fault) := do
  let session ← (Session.start source).run source
  return (session.draft.document source, session.draft.faults.reverse)

end ClassHoist.Markup
