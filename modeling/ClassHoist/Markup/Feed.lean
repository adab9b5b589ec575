import ClassHoist.Markup.ByteScan
import ClassHoist.Markup.Fault

/-! # Reading with a list of tokens

A source can be read with the list of all of its tokens at hand. Two things are kept apart then: the
tokens that are left, and the number of bytes that have been read (`Feed`). Text is passed by the
offset of its end alone, and the tokens that start before it are dropped. All text is cut out of the
source at byte offsets, and a cut fails where there is none, past the end or inside a character.
-/

namespace ClassHoist.Markup

/-- The tokens of a source that are left, and the number of bytes that have been read. -/
structure Feed where
  tokens : List Token
  offset : Nat
  deriving DecidableEq, Repr

/-- What has been read from a feed: a value, the faults in the order in which they were found, and
the feed after it. -/
structure Intake (Content : Type) where
  value : Content
  faults : List Fault
  next : Feed

/-- The text at a span of a source, if there is one. -/
def cut (source : Text) (span : Span) : Option Text := Text.slice? source span.start span.stop

/-- The text from an offset of a source on, if there is one. -/
def cutFrom (source : Text) (offset : Nat) : Option Text :=
  (Text.splitAt? offset source).map Prod.snd

/-- The span without the white space at either end of it. -/
def trimSpan (source : Text) (span : Span) : Option Span := do
  let text ← cut source span
  let start := span.start + (text.bytes - (Text.trimLeft text).bytes)
  return ⟨start, max start (span.start + (Text.trimRight text).bytes)⟩

/-- The keyword at the start of a span, and the span of what follows it without white space. -/
def cutKeyword (source : Text) (span : Span) : Option (String × Span) := do
  let text ← cut source span
  let length := Text.bytes (text.takeWhile Char.isAlpha)
  let (keyword, _) ← Text.splitAt? length text
  return (String.ofList keyword, ← trimSpan source ⟨span.start + length, span.stop⟩)

/-- The expression in braces at a span whose code is at another. -/
def cutCode (source : Text) (span codeSpan : Span) : Option Embedded :=
  (cut source codeSpan).map fun code => ⟨span, codeSpan, String.ofList code⟩

/-- The expression between braces, given the spans with and without them. -/
def cutEmbedded (source : Text) (spans : Span × Span) : Option Embedded := do
  cutCode source spans.1 (← trimSpan source spans.2)

/-- The keyword between braces and the expression after it, given the spans with and without the
braces. -/
def cutWithKeyword (source : Text) (spans : Span × Span) : Option (String × Embedded) := do
  let (keyword, codeSpan) ← cutKeyword source spans.2
  return (keyword, ← cutCode source spans.1 codeSpan)

namespace Feed

/-- The next token; the end of the file again when all have been passed. -/
def token (source : Text) (feed : Feed) : Token :=
  feed.tokens.headD ⟨.endOfFile, .empty source.bytes, []⟩

/-- The number of bytes that have not been read. -/
def left (source : Text) (feed : Feed) : Nat := source.bytes - feed.offset

/-- Pass the next token. -/
def bump (source : Text) (feed : Feed) : Feed :=
  ⟨feed.tokens.tail, max feed.offset (feed.token source).span.stop⟩

/-- Pass the text up to an offset, and the tokens that start before it. -/
def sync (feed : Feed) (stop : Nat) : Feed :=
  let offset := max feed.offset stop
  ⟨feed.tokens.dropWhile fun token => token.span.start < offset && token.kind != .endOfFile, offset⟩

/-- Pass everything. -/
def toEnd (source : Text) (feed : Feed) : Feed := feed.sync source.bytes

/-- The name directly after the next token, if the token after that is a name. -/
def tagName? (source : Text) (feed : Feed) : Option (Option String) :=
  match feed.tokens.tail with
  | [] => some none
  | next :: _ =>
    if next.kind = .name ∧ next.span.start = (feed.token source).span.stop then
      (cut source next.span).map fun name => some (String.ofList name)
    else some none

/-- Pass the next token if it is of the kind. -/
def skip (source : Text) (feed : Feed) (kind : TokenKind) : Feed :=
  if (feed.token source).kind = kind then feed.bump source else feed

/-- The fault of a next token that is not of the kind asked for. -/
def missing (source : Text) (feed : Feed) (expected : TokenKind) : Fault :=
  let found := feed.token source
  if found.kind = .endOfFile then ⟨.unexpectedEnd (.token expected), found.span⟩
  else ⟨.unexpectedToken expected found.kind, found.span⟩

/-- Pass a next token of the kind; another one stays, and is a fault. -/
def expect (source : Text) (feed : Feed) (kind : TokenKind) : Intake Unit :=
  if (feed.token source).kind = kind then ⟨(), [], feed.bump source⟩
  else ⟨(), [feed.missing source kind], feed⟩

/-- Pass the construct in braces whose opening is the next token: its span and that of the text
between the braces. One that is not closed is a fault, and everything is passed then. -/
def braced (source : Text) (feed : Feed) : Option (Intake (Option (Span × Span))) := do
  let opening := (feed.token source).span
  match ← Expression.findClosing source '\x7d' 0 opening.stop with
  | some close =>
    return ⟨some (⟨opening.start, close + 1⟩, ⟨opening.stop, close⟩), [], feed.sync (close + 1)⟩
  | none =>
    return ⟨none, [⟨.unexpectedEnd (.token .braceClose), opening⟩], feed.toEnd source⟩

end Feed

end ClassHoist.Markup
