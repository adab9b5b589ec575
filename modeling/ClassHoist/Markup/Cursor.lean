import ClassHoist.Markup.Expression
import ClassHoist.Markup.Fault

/-! # Places in a source

A cursor is a place in a source: what has been read is known by its length only, what follows is
there to be read. Reading moves the cursor towards the end, and the lemmas here say so for each
way of moving.
-/

namespace ClassHoist.Markup

/-- A place in a source: the number of bytes before it, and the text after it. -/
structure Cursor where
  offset : Nat
  rest : Text
  deriving DecidableEq, Repr

/-- What has been read: a value, the faults in the order in which they were found, and the place
after it. -/
structure Reading (Content : Type) where
  value : Content
  faults : List Fault
  next : Cursor

/-- A construct in braces: its span with the braces, where the text between them starts, that text,
and the place after the closing brace. -/
structure Braced where
  span : Span
  innerStart : Nat
  inner : Text
  next : Cursor

/-- The part of a text without the white space around it, and where that part stands if the text
starts at `offset`. Nothing is left of white space alone, and that at its end. -/
def trimmed (offset : Nat) (text : Text) : Span × Text :=
  let start := offset + Text.bytes (text.takeWhile Text.isBlank)
  let part := Text.trim text
  (⟨start, start + part.bytes⟩, part)

/-- The keyword at the front of a text, and what follows it without the white space around. -/
def splitKeyword (offset : Nat) (text : Text) : String × Span × Text :=
  let keyword := text.takeWhile Char.isAlpha
  (String.ofList keyword, trimmed (offset + Text.bytes keyword) (text.dropWhile Char.isAlpha))

/-- An expression whose code is the part of `inner` without the white space around it. -/
def Braced.embedded (braced : Braced) : Embedded :=
  let (span, code) := trimmed braced.innerStart braced.inner
  ⟨braced.span, span, String.ofList code⟩

/-- The keyword of a construct in braces, and the expression after the keyword. -/
def Braced.withKeyword (braced : Braced) : String × Embedded :=
  let (keyword, span, code) := splitKeyword braced.innerStart braced.inner
  (keyword, ⟨braced.span, span, String.ofList code⟩)

namespace Cursor

/-- The start of a source. -/
def start (source : Text) : Cursor := ⟨0, source⟩

/-- The first token after the cursor. -/
def token (cursor : Cursor) : Token := (firstToken cursor.offset cursor.rest).1

/-- The place after the first token. -/
def bump (cursor : Cursor) : Cursor :=
  let (token, rest) := firstToken cursor.offset cursor.rest
  ⟨token.span.stop, rest⟩

/-- The place after `taken`, given what follows it. -/
def past (cursor : Cursor) (taken rest : Text) : Cursor :=
  ⟨cursor.offset + taken.bytes, rest⟩

/-- The end of the source. -/
def toEnd (cursor : Cursor) : Cursor := cursor.past cursor.rest []

/-- The name of the tag whose opening or closing starts with the first token: the token directly
after it, if that is a name. -/
def tagName? (cursor : Cursor) : Option String :=
  let next := cursor.bump.token
  if next.kind = .name ∧ next.span.start = cursor.token.span.stop then
    some (String.ofList next.text)
  else none

/-- The construct in braces whose opening is the first token, if it is closed. -/
def braced? (cursor : Cursor) : Option Braced := do
  let inside := cursor.bump
  let (inner, after) ← Expression.closing? '\x7d' inside.rest
  let stop := inside.offset + inner.bytes + 1
  return ⟨⟨cursor.token.span.start, stop⟩, inside.offset, inner, ⟨stop, after⟩⟩

/-- The fault of a construct in braces that is not closed. -/
def unclosedBrace (cursor : Cursor) : Fault :=
  ⟨.unexpectedEnd (.token .braceClose), cursor.token.span⟩

/-- Move past the first token if it is of the kind. -/
def skip (cursor : Cursor) (kind : TokenKind) : Cursor :=
  if cursor.token.kind = kind then cursor.bump else cursor

/-- The fault of a first token that is not of the kind asked for. -/
def missing (cursor : Cursor) (expected : TokenKind) : Fault :=
  let found := cursor.token
  if found.kind = .endOfFile then ⟨.unexpectedEnd (.token expected), found.span⟩
  else ⟨.unexpectedToken expected found.kind, found.span⟩

/-- Move past a first token of the kind; another one stays, and is a fault. -/
def expect (cursor : Cursor) (kind : TokenKind) : Reading Unit :=
  if cursor.token.kind = kind then ⟨(), [], cursor.bump⟩
  else ⟨(), [cursor.missing kind], cursor⟩

/-- No more text follows the first cursor than the second. -/
def le (first second : Cursor) : Prop := first.rest.length ≤ second.rest.length

/-- Less text follows the first cursor than the second. -/
def lt (first second : Cursor) : Prop := first.rest.length < second.rest.length

end Cursor

/-- A word is never the end of the file. -/
theorem wordLexeme_kind_ne_endOfFile (c : Char) (rest : Text) :
    (wordLexeme (c :: rest)).1 ≠ .endOfFile := by
  unfold wordLexeme
  split
  · simp
  · simp only
    split <;> simp

/-- Only the end of a text is the end of file. -/
theorem lexeme_kind_ne_endOfFile (c : Char) (rest : Text) :
    (lexeme (c :: rest)).1 ≠ .endOfFile := by
  unfold lexeme
  split
  case h_16 => exact wordLexeme_kind_ne_endOfFile c rest
  all_goals simp

namespace Cursor

theorem le_refl (cursor : Cursor) : cursor.le cursor := Nat.le_refl _

theorem le_of_lt {first second : Cursor} (less : first.lt second) : first.le second :=
  Nat.le_of_lt less

theorem le_trans {first second third : Cursor} (left : first.le second) (right : second.le third) :
    first.le third := Nat.le_trans left right

theorem lt_of_le_of_lt {first second third : Cursor} (left : first.le second)
    (right : second.lt third) : first.lt third := Nat.lt_of_le_of_lt left right

theorem lt_of_lt_of_le {first second third : Cursor} (left : first.lt second)
    (right : second.le third) : first.lt third := Nat.lt_of_lt_of_le left right

/-- Every token but the end of file has text, so moving past it leaves less to read. -/
theorem bump_lt {cursor : Cursor} (more : cursor.token.kind ≠ .endOfFile) :
    cursor.bump.lt cursor := by
  have dropped := (List.dropWhile_suffix Text.isSeparator (l := cursor.rest)).length_le
  unfold lt bump
  unfold token at more
  simp only [firstToken] at more ⊢
  match left : cursor.rest.dropWhile Text.isSeparator with
  | [] => exact absurd (by rw [left, lexeme_nil]) more
  | c :: tail =>
    have shorter := length_lexeme_lt c tail
    rw [left] at dropped
    omega

/-- Stepping over the next token never lengthens the rest. -/
theorem bump_le (cursor : Cursor) : cursor.bump.le cursor := by
  by_cases more : cursor.token.kind = .endOfFile
  · unfold le bump
    unfold token at more
    simp only [firstToken] at more ⊢
    match left : cursor.rest.dropWhile Text.isSeparator with
    | [] => rw [lexeme_nil]; exact Nat.zero_le _
    | c :: tail =>
      rw [left] at more
      exact absurd more (lexeme_kind_ne_endOfFile c tail)
  · exact le_of_lt (bump_lt more)

/-- Jumping to the end never lengthens the rest. -/
theorem toEnd_le (cursor : Cursor) : cursor.toEnd.le cursor := by
  simp [le, toEnd, past]

/-- Stepping over a token of a given kind, if it is next, never lengthens the rest. -/
theorem skip_le (cursor : Cursor) (kind : TokenKind) : (cursor.skip kind).le cursor := by
  unfold skip
  split
  · exact bump_le cursor
  · exact le_refl cursor

/-- Asking for a token of a given kind never lengthens the rest, whether it is there or not. -/
theorem expect_le (cursor : Cursor) (kind : TokenKind) : (cursor.expect kind).next.le cursor := by
  unfold expect
  split
  · exact bump_le cursor
  · exact le_refl cursor

/-- What follows a construct in braces is less than what starts with it. -/
theorem braced?_lt {cursor : Cursor} {braced : Braced} (found : cursor.braced? = some braced) :
    braced.next.lt cursor := by
  simp only [braced?, Option.bind_eq_bind, Option.bind_eq_some_iff, Option.pure_def,
    Option.some.injEq] at found
  obtain ⟨⟨inner, after⟩, closed, rfl⟩ := found
  exact lt_of_lt_of_le (Expression.length_closing?_lt closed) (bump_le cursor)

end Cursor

end ClassHoist.Markup
