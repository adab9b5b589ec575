import ClassHoist.Markup.Feed
import ClassHoist.Markup.Tag

/-! # Opening tags from a list of tokens

The values in a tag are looked for byte by byte, and the tokens inside them are passed by their
offsets alone.
-/

namespace ClassHoist.Markup

/-- The parts of a quoted value and the place of its closing quote, or what is missing. The search
goes on at an offset, in literal text that starts at `front`. Code in braces has to end behind the
offset. -/
def scanQuoted (source : Text) (quote : Char) (front offset : Nat) :
    Option (Except Missing (List ValuePart × Nat)) :=
  match found : Text.byteAt? source offset with
  | none => some (.error .closingQuote)
  | some byte =>
    if byte = quote then do
      let literal ← cut source ⟨front, offset⟩
      return .ok (literalPart front literal, offset)
    else if byte = '\x7b' then do
      let literal ← cut source ⟨front, offset⟩
      match ← Expression.findClosing source '\x7d' 0 (offset + 1) with
      | none => return .error (.token .braceClose)
      | some close =>
        let embedded ← cutCode source ⟨offset, close + 1⟩ ⟨offset + 1, close⟩
        if offset < close then
          let others ← scanQuoted source quote (close + 1) (close + 1)
          return others.map fun read =>
            (literalPart front literal ++ .expression embedded :: read.1, read.2)
        else none
    else scanQuoted source quote front (offset + 1)
termination_by source.bytes - offset
decreasing_by all_goals
  have inside := Text.lt_bytes_of_byteAt? found
  omega

/-- The end of a value without quotes, going on at an offset inside it. -/
def scanUnquoted (source : Text) (offset : Nat) : Option Nat :=
  match found : Text.byteAt? source offset with
  | none => some offset
  | some byte =>
    if isUnquotedChar byte = false ∨ (byte = '/' ∧ Text.byteAt? source (offset + 1) = some '>') then
      some offset
    else scanUnquoted source (offset + 1)
termination_by source.bytes - offset
decreasing_by
  have inside := Text.lt_bytes_of_byteAt? found
  omega

/-- The value that is an expression alone, given the spans with and without its braces. -/
def cutExpression (source : Text) (spans : Span × Span) : Option (Option Value × List Fault) :=
  (cutCode source spans.1 spans.2).map fun embedded => (some (.expression embedded), [])

/-- The attribute in braces with the content: a spread if it starts with three dots, and a shorthand
otherwise. -/
def Attribute.ofContent (span : Span) (content : Text) : Attribute :=
  match Text.dropLead? ['.', '.', '.'] content with
  | some code => .spread span (String.ofList (Text.trim code))
  | none => .shorthand span (String.ofList content)

/-- The special tag in an opening tag, given its keyword and the code after that. -/
def attachContent (keyword : String) (embedded : Embedded) : Option Attribute × List Fault :=
  if keyword = "attach" then (some (.attach embedded.span embedded.code), [])
  else (none, [⟨.notInTag keyword, embedded.span⟩])

namespace Feed

/-- Read the quoted value whose quote is the next token. -/
def quotedValue (source : Text) (feed : Feed) : Option (Intake (Option Value)) := do
  let opening := (feed.token source).span
  let quote ← Text.byteAt? source opening.start
  let inside := feed.bump source
  match ← scanQuoted source quote opening.stop opening.stop with
  | .ok (parts, stop) =>
    return ⟨some (.ofParts opening.stop parts), [], inside.sync (stop + 1)⟩
  | .error missing =>
    let ended := inside.toEnd source
    return ⟨none, [⟨.unexpectedEnd missing, (ended.token source).span⟩], ended⟩

/-- Read the construct in braces whose opening is the next token, and make something of it, given its
spans with and without the braces. -/
def readBraced {Content : Type} (source : Text) (feed : Feed)
    (use : Span × Span → Option (Option Content × List Fault)) :
    Option (Intake (Option Content)) := do
  let intake ← feed.braced source
  match intake.value with
  | none => return ⟨none, intake.faults, intake.next⟩
  | some spans =>
    let (value, faults) ← use spans
    return ⟨value, faults, intake.next⟩

/-- Read the value without quotes that starts with the next token. -/
def unquotedValue (source : Text) (feed : Feed) : Option (Intake (Option Value)) := do
  let start := (feed.token source).span.start
  let stop ← scanUnquoted source start
  let raw ← cut source ⟨start, stop⟩
  return ⟨some (.text ⟨⟨start, stop⟩, String.ofList raw⟩), [], feed.sync stop⟩

/-- Read the value of the attribute of a name. -/
def value (source name : Text) (feed : Feed) : Option (Intake (Option Value)) :=
  match (feed.token source).kind with
  | .doubleQuote | .singleQuote => feed.quotedValue source
  | .braceOpen => feed.readBraced source fun spans => cutExpression source spans
  | .name | .word => feed.unquotedValue source
  | _ => some ⟨none, [⟨.missingValue (String.ofList name), (feed.token source).span⟩], feed⟩

/-- Read the attribute whose name is the next token, with its value if it has one. -/
def namedAttribute (source : Text) (feed : Feed) : Option (Intake (Option Attribute)) := do
  let found := feed.token source
  let name ← cut source found.span
  let named (value : Value) (next : Feed) : Attribute :=
    .named ⟨found.span.start, next.offset⟩ (String.ofList name) value
  let behind := feed.bump source
  if (behind.token source).kind = .equals then
    let intake ← (behind.bump source).value source name
    return ⟨intake.value.map (named · intake.next), intake.faults, intake.next⟩
  else return ⟨some (named .absent behind), [], behind⟩

/-- Read the attribute in braces whose opening is the next token. -/
def bracedAttribute (source : Text) (feed : Feed) : Option (Intake (Option Attribute)) :=
  feed.readBraced source fun spans => do
    let content ← cut source (← trimSpan source spans.2)
    return (some (.ofContent spans.1 content), [])

/-- Read the special tag in an opening tag whose opening is the next token. -/
def attachAttribute (source : Text) (feed : Feed) : Option (Intake (Option Attribute)) :=
  feed.readBraced source fun spans => do
    let (keyword, embedded) ← cutWithKeyword source spans
    return attachContent keyword embedded

/-- Read the next attribute of a tag, unless the tag or the file ends. -/
def attribute? (source : Text) (feed : Feed) : Option (Option (Intake (Option Attribute))) :=
  match (feed.token source).kind with
  | .tagEnd | .selfClose | .endOfFile => some none
  | .name | .word => (feed.namedAttribute source).map some
  | .braceOpen => (feed.bracedAttribute source).map some
  | .specialOpen => (feed.attachAttribute source).map some
  | kind => some (some ⟨none, [⟨.unexpectedInTag kind, (feed.token source).span⟩], feed.bump source⟩)

/-- Read the attributes of a tag, up to its end. Each of them has to take some of the source. -/
def attributes (source : Text) (feed : Feed) : Option (Intake (List Attribute)) := do
  match ← feed.attribute? source with
  | none => return ⟨[], [], feed⟩
  | some intake =>
    if intake.next.left source < feed.left source then
      let more ← attributes source intake.next
      return ⟨intake.value.toList ++ more.value, intake.faults ++ more.faults, more.next⟩
    else none
termination_by feed.left source

/-- Read the opening tag that starts with the next token. -/
def openTag (source : Text) (feed : Feed) : Option (Intake (Option OpenTag)) := do
  let opening := (feed.token source).span
  let place := feed.bump source
  let found := place.token source
  let name := String.ofList (← cut source found.span)
  if found.kind = .name ∧ found.span.start = opening.stop then
    let intake ← (place.bump source).attributes source
    let tag (selfClosing : Bool) : OpenTag := ⟨opening.start, name, intake.value, selfClosing⟩
    if (intake.next.token source).kind = .selfClose then
      return ⟨some (tag true), intake.faults, intake.next.bump source⟩
    else
      let ended := intake.next.expect source .tagEnd
      return ⟨some (tag false), intake.faults ++ ended.faults, ended.next⟩
  else return ⟨none, [⟨.invalidTagName name, found.span⟩], place⟩

end Feed

end ClassHoist.Markup
