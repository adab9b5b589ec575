import ClassHoist.Markup.FeedTag
import ClassHoist.Markup.Reader

/-! # Contents of elements from a list of tokens

Content that is not markup is looked for in the text behind the offset, as far as the closing tag of
its element, and a closing tag is read by its tokens again. What is found is cut out of the source,
and the tokens inside it are passed by the offset of its end.
-/

namespace ClassHoist.Markup

/-- The text at a span as a node, unless it is empty. -/
def cutRun (source : Text) (span : Span) : Option (List Node) := do
  let text ← cut source span
  return if text.isEmpty then [] else [.text span (String.ofList text)]

namespace Feed

/-- Read the closing tag of the element of the name, which should be the next token. -/
def closingTag (source : Text) (name : String) (feed : Feed) : Option (Intake Unit) := do
  let place := feed.token source
  if place.kind = .closingOpen then
    let found ← feed.tagName? source
    if found = some name then return ((feed.bump source).bump source).expect source .tagEnd
    else return ⟨(), [⟨.mismatchedClosingTag name (found.getD ""), place.span⟩], feed⟩
  else return ⟨(), [⟨.unclosedTag name, place.span⟩], feed⟩

/-- The span of what stands before the closing tag of the element of the name, and the text of it. -/
def beforeClosing (source : Text) (name : String) (feed : Feed) : Option (Span × Text) := do
  let rest ← cutFrom source feed.offset
  let (front, _) := Text.spanUntil (Text.startsWith (closingLead name)) rest
  let span : Span := ⟨feed.offset, feed.offset + front.bytes⟩
  return (span, ← cut source span)

/-- Read content that is not markup. -/
def rawContent (source : Text) (name : String) (feed : Feed) : Option (Span × Text × Feed) := do
  let (span, content) ← feed.beforeClosing source name
  return (span, content, feed.sync span.stop)

/-- Read text and expressions up to the start of the closing tag of the element. Each expression has
to take some of the source. -/
def textContent (source : Text) (name : String) (feed : Feed) : Option (Intake (List Node)) := do
  let start := feed.offset
  let (_, content) ← feed.beforeClosing source name
  let stop := start + Text.bytes (content.takeWhile (· != '\x7b'))
  let leading ← cutRun source ⟨start, stop⟩
  let place := feed.sync stop
  if content.all (· != '\x7b') then return ⟨leading, [], place⟩
  else
    match ← Expression.findClosing source '\x7d' 0 (stop + 1) with
    | none =>
      return ⟨leading, [⟨.unexpectedEnd (.token .braceClose), ⟨stop, stop + 1⟩⟩], place.toEnd source⟩
    | some close =>
      let embedded ← cutEmbedded source (⟨stop, close + 1⟩, ⟨stop + 1, close⟩)
      let behind := place.sync (close + 1)
      if behind.left source < feed.left source then
        let more ← textContent source name behind
        return ⟨leading ++ .expression embedded :: more.value, more.faults, more.next⟩
      else none
termination_by feed.left source

/-- Read the script or style whose opening tag starts with the next token. -/
def rawElement (source : Text) (feed : Feed) : Option (Intake (Option RawElement)) := do
  let opening ← feed.openTag source
  match opening.value with
  | none => return ⟨none, opening.faults, opening.next⟩
  | some tag =>
    let inside := opening.next
    if tag.selfClosing then
      return ⟨some ⟨⟨tag.start, inside.offset⟩, Span.empty inside.offset, [], tag.attributes⟩,
        opening.faults, inside⟩
    else
      let (contentSpan, content, place) ← inside.rawContent source tag.name
      let closing ← place.closingTag source tag.name
      return ⟨some ⟨⟨tag.start, closing.next.offset⟩, contentSpan, content, tag.attributes⟩,
        opening.faults ++ closing.faults, closing.next⟩

end Feed

end ClassHoist.Markup
