import ClassHoist.Markup.Reader
import ClassHoist.Proofs.ByteOffsets
import ClassHoist.Proofs.Closing

/-! # Places reached while reading

Every way of reading moves the cursor past some text of the source (`Cursor.Reaches`), so offsets
that are read off cursors are boundaries of the source. What has been read between two places
stands there (`Cursor.Holds`): the text at its span is the text that was read.
-/

namespace ClassHoist.Markup

namespace Cursor

/-- The second place comes after some text that follows the first. -/
def Reaches (first second : Cursor) : Prop :=
  ∃ taken, first.rest = taken ++ second.rest ∧
    second.offset = first.offset + Text.bytes taken

theorem Reaches.refl (cursor : Cursor) : cursor.Reaches cursor := ⟨[], rfl, rfl⟩

theorem Reaches.trans {first second third : Cursor} (left : first.Reaches second)
    (right : second.Reaches third) : first.Reaches third := by
  obtain ⟨taken, joined, counted⟩ := left
  obtain ⟨more, joined', counted'⟩ := right
  refine ⟨taken ++ more, ?_, ?_⟩
  · rw [joined, joined', List.append_assoc]
  · rw [counted', counted, Text.bytes_append, Nat.add_assoc]

/-- Whatever is reached lies no earlier. -/
theorem Reaches.offset_le {first second : Cursor} (reach : first.Reaches second) :
    first.offset ≤ second.offset := by
  obtain ⟨taken, -, counted⟩ := reach
  omega

/-- A place reached from the start of a source is a boundary of it. -/
theorem Reaches.isBoundary {source : Text} {cursor : Cursor}
    (reach : (Cursor.start source).Reaches cursor) :
    Text.isBoundary source cursor.offset = true := by
  obtain ⟨taken, joined, counted⟩ := reach
  exact Text.isBoundary_iff.mpr ⟨taken, cursor.rest, joined, by simpa [start] using counted.symm⟩

/-- Taking characters from the rest reaches the place behind them. -/
theorem reaches_past {cursor : Cursor} {taken rest : Text} (split : cursor.rest = taken ++ rest) :
    cursor.Reaches (cursor.past taken rest) :=
  ⟨taken, split, rfl⟩

/-- The end is reached from everywhere. -/
theorem reaches_toEnd (cursor : Cursor) : cursor.Reaches cursor.toEnd :=
  reaches_past (List.append_nil _).symm

/-- What follows a place is blanks, the first token, and what follows the token. -/
theorem rest_eq (cursor : Cursor) :
    cursor.rest = cursor.rest.takeWhile Text.isSeparator ++
      (cursor.token.text ++ cursor.bump.rest) := by
  unfold token bump
  simp only [firstToken]
  rw [lexeme_append, List.takeWhile_append_dropWhile]

/-- A token starts behind the white space in front of it. -/
theorem token_start (cursor : Cursor) :
    cursor.token.span.start =
      cursor.offset + Text.bytes (cursor.rest.takeWhile Text.isSeparator) := rfl

/-- A token stops as many bytes behind its start as its text has. -/
theorem token_stop (cursor : Cursor) :
    cursor.token.span.stop = cursor.token.span.start + Text.bytes cursor.token.text := rfl

/-- Stepping over a token leads to where it stops. -/
theorem offset_bump (cursor : Cursor) : cursor.bump.offset = cursor.token.span.stop := rfl

/-- Stepping over a token reaches the place behind it. -/
theorem reaches_bump (cursor : Cursor) : cursor.Reaches cursor.bump := by
  refine ⟨cursor.rest.takeWhile Text.isSeparator ++ cursor.token.text, ?_, ?_⟩
  · rw [List.append_assoc, ← rest_eq]
  · rw [offset_bump, token_stop, token_start, Text.bytes_append, Nat.add_assoc]

/-- Stepping over a token of a given kind reaches where it leads, also where the kind is another
one. -/
theorem reaches_skip (cursor : Cursor) (kind : TokenKind) : cursor.Reaches (cursor.skip kind) := by
  unfold skip
  split
  · exact reaches_bump cursor
  · exact Reaches.refl cursor

/-- Asking for a token of a given kind reaches where it leads. -/
theorem reaches_expect (cursor : Cursor) (kind : TokenKind) :
    cursor.Reaches (cursor.expect kind).next := by
  unfold expect
  split
  · exact reaches_bump cursor
  · exact Reaches.refl cursor

/-- What a construct in braces is made of. -/
theorem braced?_eq_some {cursor : Cursor} {braced : Braced}
    (found : cursor.braced? = some braced) :
    Expression.closing? '\x7d' cursor.bump.rest = some (braced.inner, braced.next.rest) ∧
      braced.span = ⟨cursor.token.span.start, braced.next.offset⟩ ∧
      braced.innerStart = cursor.bump.offset ∧
      braced.next.offset = cursor.bump.offset + Text.bytes braced.inner + 1 := by
  simp only [braced?, Option.bind_eq_bind, Option.bind_eq_some_iff, Option.pure_def,
    Option.some.injEq] at found
  obtain ⟨⟨inner, after⟩, closed, rfl⟩ := found
  exact ⟨closed, rfl, rfl, rfl⟩

/-- The place behind a part in braces is reached from the place before it. -/
theorem reaches_braced? {cursor : Cursor} {braced : Braced}
    (found : cursor.braced? = some braced) : cursor.Reaches braced.next := by
  obtain ⟨closed, -, -, stop⟩ := braced?_eq_some found
  refine (reaches_bump cursor).trans ⟨braced.inner ++ ['\x7d'], ?_, ?_⟩
  · rw [Expression.closing?_eq_some closed, List.append_assoc]
    rfl
  · rw [stop, Text.bytes_append, Nat.add_assoc]
    rfl

/-- Between two places, a text stands at a span. -/
def Holds (first last : Cursor) (span : Span) (text : Text) : Prop :=
  ∃ before after, first.rest = before ++ (text ++ (after ++ last.rest)) ∧
    span.start = first.offset + Text.bytes before ∧ span.stop = span.start + Text.bytes text ∧
    last.offset = span.stop + Text.bytes after

/-- What is held between two places is held between places further apart. -/
theorem Holds.widen {first second third fourth : Cursor} {span : Span} {text : Text}
    (holds : second.Holds third span text) (left : first.Reaches second)
    (right : third.Reaches fourth) : first.Holds fourth span text := by
  obtain ⟨before, after, whole, startIs, stopIs, lastIs⟩ := holds
  obtain ⟨taken, joined, counted⟩ := left
  obtain ⟨more, joined', counted'⟩ := right
  refine ⟨taken ++ before, after ++ more, ?_, ?_, stopIs, ?_⟩
  · rw [joined, whole, joined', List.append_assoc, List.append_assoc]
  · rw [startIs, counted, Text.bytes_append, Nat.add_assoc]
  · rw [counted', lastIs, Text.bytes_append, Nat.add_assoc]

/-- What is held between two places starts no earlier than the first. -/
theorem Holds.start_le {first last : Cursor} {span : Span} {text : Text}
    (holds : first.Holds last span text) : first.offset ≤ span.start := by
  obtain ⟨before, after, -, startIs, -, -⟩ := holds
  omega

/-- What is held between two places stops no later than the second. -/
theorem Holds.le_stop {first last : Cursor} {span : Span} {text : Text}
    (holds : first.Holds last span text) : span.stop ≤ last.offset := by
  obtain ⟨before, after, -, -, -, lastIs⟩ := holds
  omega

end Cursor

/-- Finishing an unquoted value reaches the place it ends at. -/
theorem afterUnquoted_reaches (run after : Text) (stop : Nat) :
    Cursor.Reaches ⟨stop, after⟩ (afterUnquoted run after stop) := by
  unfold afterUnquoted
  split
  · exact ⟨['/'], rfl, rfl⟩
  · exact ⟨['/'], rfl, rfl⟩
  · exact Cursor.Reaches.refl _

/-- A quoted value goes on at its closing quote or at an opening brace. -/
theorem eq_brace_of_dropWhile {quote c : Char} {input rest : Text}
    (left : input.dropWhile (isLiteralChar quote) = c :: rest) (other : c ≠ quote) :
    c = '\x7b' := by
  have stops := List.head_dropWhile_not (isLiteralChar quote) (l := input) (by simp [left])
  simp only [left, List.head_cons] at stops
  simp only [isLiteralChar, Bool.and_eq_false_iff, bne_eq_false_iff_eq] at stops
  exact stops.resolve_left other

/-- The parts of a quoted value reach the place behind its closing quote. -/
theorem quotedParts_reaches {quote : Char} {offset : Nat} {input : Text}
    {parts : List ValuePart} {next : Cursor}
    (done : quotedParts quote offset input = .ok (parts, next)) :
    Cursor.Reaches ⟨offset, input⟩ next := by
  have joined (input : Text) : input = input.takeWhile (isLiteralChar quote) ++
      input.dropWhile (isLiteralChar quote) := List.takeWhile_append_dropWhile.symm
  fun_induction quotedParts quote offset input generalizing parts next with
  | case1 => cases done
  | case2 offset input literal stop =>
    rename_i rest left
    simp only [Except.ok.injEq, Prod.mk.injEq] at done
    obtain ⟨-, rfl⟩ := done
    refine ⟨literal ++ [quote], ?_, ?_⟩
    · rw [List.append_assoc]
      exact (joined input).trans (congrArg (literal ++ ·) left)
    · rw [Text.bytes_append]
      simp only [stop, Text.bytes_cons, Text.bytes_nil, Nat.add_zero, Nat.add_assoc]
  | case3 => cases done
  | case4 => cases done
  | case5 offset input literal stop c rest left other =>
    rename_i inner after closed codeStart codeStop _ more next' same ih
    simp only [Except.ok.injEq, Prod.mk.injEq] at done
    obtain ⟨-, rfl⟩ := done
    refine Cursor.Reaches.trans ⟨literal ++ c :: inner ++ ['\x7d'], ?_, ?_⟩ (ih same)
    · rw [List.append_assoc, List.append_assoc, List.cons_append]
      refine (joined input).trans (congrArg (literal ++ ·) (left.trans ?_))
      rw [Expression.closing?_eq_some closed]
      rfl
    · obtain rfl := eq_brace_of_dropWhile left other
      have one : Char.utf8Size '\x7b' = 1 := rfl
      have last : Char.utf8Size '\x7d' = 1 := rfl
      simp only [Text.bytes_append, Text.bytes_cons, Text.bytes_nil, codeStop, codeStart, stop,
        one, last]
      omega

/-- A quoted value reaches the place it ends at, closed or not. -/
theorem quotedValue_reaches (cursor : Cursor) : cursor.Reaches (quotedValue cursor).next := by
  unfold quotedValue
  simp only
  split
  case h_1 _ _ done => exact (Cursor.reaches_bump cursor).trans (quotedParts_reaches done)
  case h_2 => exact Cursor.reaches_toEnd cursor

/-- A value without quotes starts at its first token. -/
theorem rest_eq_unquotedRun (cursor : Cursor) :
    cursor.rest = cursor.rest.takeWhile Text.isSeparator ++
      ((unquotedRun (cursor.rest.dropWhile Text.isSeparator)).1 ++
        (unquotedRun (cursor.rest.dropWhile Text.isSeparator)).2) := by
  rw [unquotedRun_append, List.takeWhile_append_dropWhile]

/-- An unquoted value reaches the place it ends at. -/
theorem unquoted_reaches (cursor : Cursor) {run after : Text}
    (same : unquotedRun (cursor.rest.dropWhile Text.isSeparator) = (run, after)) :
    cursor.Reaches (afterUnquoted run after (cursor.token.span.start + Text.bytes run)) := by
  have whole := rest_eq_unquotedRun cursor
  rw [same] at whole
  refine Cursor.Reaches.trans
    ⟨cursor.rest.takeWhile Text.isSeparator ++ run, ?_, ?_⟩ (afterUnquoted_reaches run after _)
  · rw [List.append_assoc]
    exact whole
  · rw [Cursor.token_start, Text.bytes_append, Nat.add_assoc]

/-- An attribute with a name reaches the place it ends at. -/
theorem namedAttribute_reaches (cursor : Cursor) :
    cursor.Reaches (namedAttribute cursor).next := by
  refine (Cursor.reaches_bump cursor).trans ?_
  unfold namedAttribute
  simp only
  split
  case isFalse => exact Cursor.Reaches.refl _
  case isTrue =>
    refine (Cursor.reaches_bump _).trans ?_
    split
    · exact quotedValue_reaches _
    · exact quotedValue_reaches _
    · split
      · exact Cursor.reaches_toEnd _
      · next found => exact Cursor.reaches_braced? found
    · exact unquoted_reaches _ rfl
    · exact unquoted_reaches _ rfl
    · exact Cursor.Reaches.refl _

/-- An attribute in braces reaches the place it ends at. -/
theorem bracedAttribute_reaches (cursor : Cursor) :
    cursor.Reaches (bracedAttribute cursor).next := by
  unfold bracedAttribute
  split
  · exact Cursor.reaches_toEnd cursor
  · next found => exact Cursor.reaches_braced? found

/-- An attachment reaches the place it ends at. -/
theorem attachAttribute_reaches (cursor : Cursor) :
    cursor.Reaches (attachAttribute cursor).next := by
  unfold attachAttribute
  split
  · exact Cursor.reaches_toEnd cursor
  · next found =>
    simp only
    split <;> exact Cursor.reaches_braced? found

/-- Whatever attribute is read, the place it ends at is reached. -/
theorem attribute?_reaches {cursor : Cursor} {reading : Reading (Option Attribute)}
    (found : attribute? cursor = some reading) : cursor.Reaches reading.next := by
  unfold attribute? at found
  split at found
  case h_1 | h_2 | h_3 => cases found
  case h_4 | h_5 => exact Option.some.inj found ▸ namedAttribute_reaches cursor
  case h_6 => exact Option.some.inj found ▸ bracedAttribute_reaches cursor
  case h_7 => exact Option.some.inj found ▸ attachAttribute_reaches cursor
  case h_8 => exact Option.some.inj found ▸ Cursor.reaches_bump cursor

/-- Where no attribute begins, the list of attributes is empty and nothing is read. -/
theorem attributes_of_attribute?_eq_none {cursor : Cursor} (none : attribute? cursor = none) :
    attributes cursor = ⟨[], [], cursor⟩ := by
  rw [attributes]
  split
  · rfl
  · next found =>
    rw [none] at found
    cases found

/-- Where an attribute begins, the list is this attribute and the list behind it. -/
theorem attributes_of_attribute? {cursor : Cursor} {reading : Reading (Option Attribute)}
    (found : attribute? cursor = some reading) :
    attributes cursor =
      ⟨reading.value.toList ++ (attributes reading.next).value,
        reading.faults ++ (attributes reading.next).faults, (attributes reading.next).next⟩ := by
  rw [attributes]
  split
  · next none =>
    rw [found] at none
    cases none
  · next found' =>
    rw [found] at found'
    obtain rfl := Option.some.inj found'
    rfl

/-- A list of attributes reaches the place it ends at. -/
theorem attributes_reaches (cursor : Cursor) : cursor.Reaches (attributes cursor).next := by
  fun_induction attributes cursor with
  | case1 cursor => exact Cursor.Reaches.refl cursor
  | case2 cursor reading found less more ih => exact (attribute?_reaches found).trans ih

/-- An opening tag reaches the place it ends at. -/
theorem openTag_reaches (cursor : Cursor) : cursor.Reaches (openTag cursor).next := by
  refine (Cursor.reaches_bump cursor).trans ?_
  unfold openTag
  simp only
  split
  · exact Cursor.Reaches.refl _
  · have read := (Cursor.reaches_bump cursor.bump).trans (attributes_reaches cursor.bump.bump)
    split
    · exact read.trans (Cursor.reaches_bump _)
    · exact read.trans (Cursor.reaches_expect _ _)

/-- A closing tag reaches the place it ends at. -/
theorem closingTag_reaches (cursor : Cursor) (name : String) :
    cursor.Reaches (closingTag cursor name).next := by
  unfold closingTag
  simp only
  split
  · split
    · exact (Cursor.reaches_bump _).trans
        ((Cursor.reaches_bump _).trans (Cursor.reaches_expect _ _))
    · exact Cursor.Reaches.refl _
  · exact Cursor.Reaches.refl _

/-- The content of a raw element reaches the start of its closing tag. -/
theorem rawContent_reaches (cursor : Cursor) (name : String) :
    cursor.Reaches (rawContent cursor name).2.2 :=
  Cursor.reaches_past (Text.spanUntil_append _ _).symm

/-- The text of a text area reaches the place it ends at. -/
theorem textContent_reaches (name : String) (cursor : Cursor) :
    cursor.Reaches (textContent name cursor).next := by
  fun_induction textContent name cursor with
  | case1 cursor stops found place leading inside left closed =>
    exact (Cursor.reaches_past (Text.spanUntil_append _ _).symm).trans (Cursor.reaches_toEnd _)
  | case2 cursor stops found place leading inside left inner after closed stop _ _ _ _ more ih =>
    have toPlace : cursor.Reaches place := Cursor.reaches_past (Text.spanUntil_append _ _).symm
    refine (toPlace.trans ⟨'\x7b' :: inner ++ ['\x7d'], ?_, ?_⟩).trans ih
    · rw [List.append_assoc, List.cons_append]
      exact left.trans (congrArg ('\x7b' :: ·) (Expression.closing?_eq_some closed))
    · have one : Char.utf8Size '\x7b' = 1 := rfl
      have last : Char.utf8Size '\x7d' = 1 := rfl
      simp only [Text.bytes_append, Text.bytes_cons, Text.bytes_nil, one, last, stop]
      omega
  | case3 => exact Cursor.reaches_past (Text.spanUntil_append _ _).symm

/-- A raw element reaches the place it ends at. -/
theorem rawElement_reaches (cursor : Cursor) : cursor.Reaches (rawElement cursor).next := by
  refine (openTag_reaches cursor).trans ?_
  unfold rawElement
  simp only
  split
  · exact Cursor.Reaches.refl _
  · split
    · exact Cursor.Reaches.refl _
    · exact (rawContent_reaches _ _).trans (closingTag_reaches _ _)

/-- The content of a script or style starts where its opening tag ends. -/
theorem contentSpan_start_of_rawElement {cursor : Cursor} {raw : RawElement}
    (read : (rawElement cursor).value = some raw) : (∃ tag, (openTag cursor).value = some tag) ∧
      raw.contentSpan.start = (openTag cursor).next.offset := by
  unfold rawElement at read
  simp only at read
  split at read
  case h_1 => cases read
  case h_2 tag found =>
    refine ⟨⟨tag, found⟩, ?_⟩
    split at read <;> exact Option.some.inj read ▸ rfl

/-- Text ends only at an angle bracket or a brace. -/
theorem isTextChar_eq_false {c : Char} (noText : isTextChar c = false) : c = '<' ∨ c = '\x7b' := by
  unfold isTextChar at noText
  rcases Bool.and_eq_false_iff.mp noText with other | other
  · exact .inl (by simpa using other)
  · exact .inr (by simpa using other)

namespace Cursor

/-- Where no text follows, the source ends or a tag or a brace opens. -/
theorem rest_of_no_text {cursor : Cursor} (noText : cursor.rest.takeWhile isTextChar = []) :
    cursor.rest = [] ∨ ∃ tail, cursor.rest = '<' :: tail ∨ cursor.rest = '\x7b' :: tail := by
  cases same : cursor.rest with
  | nil => exact .inl rfl
  | cons c tail =>
    have notText : isTextChar c = false := by
      rw [Bool.eq_false_iff]
      intro isText
      rw [same, List.takeWhile_cons_of_pos isText] at noText
      cases noText
    rcases isTextChar_eq_false notText with rfl | rfl
    · exact .inr ⟨tail, .inl rfl⟩
    · exact .inr ⟨tail, .inr rfl⟩

/-- Where no text follows, the first token starts at once. -/
theorem token_start_of_no_text {cursor : Cursor} (noText : cursor.rest.takeWhile isTextChar = []) :
    cursor.token.span.start = cursor.offset := by
  rw [token_start]
  rcases rest_of_no_text noText with ended | ⟨tail, tag | brace⟩
  · rw [ended]
    rfl
  · rw [tag, List.takeWhile_cons_of_neg (by decide)]
    rfl
  · rw [brace, List.takeWhile_cons_of_neg (by decide)]
    rfl

end Cursor

/-- A token at an angle bracket opens a comment, a closing tag or a tag. -/
theorem lexeme_tag (tail : Text) :
    (lexeme ('<' :: tail)).1 ∈ [TokenKind.commentOpen, .closingOpen, .tagOpen] := by
  unfold lexeme
  split <;> simp_all

/-- A token at a brace is one of the block marks or an opening brace. -/
theorem lexeme_brace (tail : Text) :
    (lexeme ('\x7b' :: tail)).1 ∈
      [TokenKind.blockOpen, .blockEnd, .blockNext, .specialOpen, .braceOpen] := by
  unfold lexeme
  split <;> simp_all

namespace Cursor

/-- At the end of the source there is only the end of file. -/
theorem kind_of_ended {cursor : Cursor} (ended : cursor.rest = []) :
    cursor.token.kind = .endOfFile := by
  unfold token firstToken
  rw [ended]
  rfl

/-- At an angle bracket the next token is the one that begins there. -/
theorem kind_of_tag {cursor : Cursor} {tail : Text} (tag : cursor.rest = '<' :: tail) :
    cursor.token.kind = (lexeme ('<' :: tail)).1 := by
  unfold token firstToken
  simp only
  rw [tag, List.dropWhile_cons_of_neg (by decide)]

/-- At a brace the next token is the one that begins there. -/
theorem kind_of_brace {cursor : Cursor} {tail : Text} (brace : cursor.rest = '\x7b' :: tail) :
    cursor.token.kind = (lexeme ('\x7b' :: tail)).1 := by
  unfold token firstToken
  simp only
  rw [brace, List.dropWhile_cons_of_neg (by decide)]

/-- Where no text follows, the first token opens something or is the end of the source. -/
theorem kind_of_no_text {cursor : Cursor} (noText : cursor.rest.takeWhile isTextChar = []) :
    cursor.token.kind ∈ [TokenKind.endOfFile, .commentOpen, .closingOpen, .tagOpen, .blockOpen,
      .blockEnd, .blockNext, .specialOpen, .braceOpen] := by
  rcases rest_of_no_text noText with ended | ⟨tail, tag | brace⟩
  · rw [kind_of_ended ended]
    decide
  · rw [kind_of_tag tag]
    have kinds := lexeme_tag tail
    simp only [List.mem_cons, List.not_mem_nil, or_false] at kinds
    rcases kinds with isKind | isKind | isKind <;> rw [isKind] <;> decide
  · rw [kind_of_brace brace]
    have kinds := lexeme_brace tail
    simp only [List.mem_cons, List.not_mem_nil, or_false] at kinds
    rcases kinds with isKind | isKind | isKind | isKind | isKind <;> rw [isKind] <;> decide

end Cursor

end ClassHoist.Markup
