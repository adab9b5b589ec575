import ClassHoist.Markup.Cursor
import ClassHoist.Text.Pattern

/-! # Opening tags

An opening tag is a name and attributes up to the bracket that ends it. A faulty attribute is
left out, and reading goes on with the next one.
-/

namespace ClassHoist.Markup

/-- The text of a value without quotes, up to a separator or the end of the tag, and what follows
it. -/
def unquotedRun : Text → Text × Text
  | [] => ([], [])
  | '/' :: '>' :: rest => ([], '/' :: '>' :: rest)
  | c :: rest =>
    if Text.isSeparator c || c == '>' then ([], c :: rest)
    else
      let (run, after) := unquotedRun rest
      (c :: run, after)

/-- A character of a value without quotes. -/
def isUnquotedChar (c : Char) : Bool := !Text.isSeparator c && c != '>'

/-- An unquoted run and what follows it are the input. -/
theorem unquotedRun_append (input : Text) :
    (unquotedRun input).1 ++ (unquotedRun input).2 = input := by
  fun_induction unquotedRun input with
  | case1 => rfl
  | case2 => rfl
  | case3 => rfl
  | case4 c rest _ _ run after same ih =>
    rw [same] at ih
    simpa using ih

/-- The place where a tag goes on after a value without quotes. A slash directly after `<` or an
opening brace belongs to the same token, so it no longer makes the tag self-closing. -/
def afterUnquoted (run after : Text) (stop : Nat) : Cursor :=
  match run.getLast?, after with
  | some '<', '/' :: rest => ⟨stop + 1, rest⟩
  | some '\x7b', '/' :: rest => ⟨stop + 1, rest⟩
  | _, after => ⟨stop, after⟩

/-- Behind an unquoted value no more text is left than followed its run. -/
theorem afterUnquoted_rest_length_le (run after : Text) (stop : Nat) :
    (afterUnquoted run after stop).rest.length ≤ after.length := by
  unfold afterUnquoted
  split <;> simp

/-- A character of literal text in a quoted value. -/
def isLiteralChar (quote c : Char) : Bool :=
  c != quote && c != '\x7b'

/-- The literal text that starts at `offset`, as a part of a value unless it is empty. -/
def literalPart (offset : Nat) (text : Text) : List ValuePart :=
  if text.isEmpty then []
  else [.text ⟨⟨offset, offset + text.bytes⟩, String.ofList text⟩]

/-- The parts of a quoted value up to its closing quote and the place after that, or what is
missing if the value does not end. -/
def quotedParts (quote : Char) (offset : Nat) (input : Text) :
    Except Missing (List ValuePart × Cursor) :=
  let literal := input.takeWhile (isLiteralChar quote)
  let stop := offset + Text.bytes literal
  match left : input.dropWhile (isLiteralChar quote) with
  | [] => .error .closingQuote
  | c :: rest =>
    if c = quote then .ok (literalPart offset literal, ⟨stop + quote.utf8Size, rest⟩)
    else
      match closed : Expression.closing? '\x7d' rest with
      | none => .error (.token .braceClose)
      | some (inner, after) =>
        let codeStart := stop + 1
        let codeStop := codeStart + inner.bytes
        have : after.length < input.length := by
          have shorter := Expression.length_closing?_lt closed
          have dropped := (List.dropWhile_suffix (isLiteralChar quote) (l := input)).length_le
          rw [left] at dropped
          simp only [List.length_cons] at dropped
          omega
        match quotedParts quote (codeStop + 1) after with
        | .error missing => .error missing
        | .ok (more, next) =>
          .ok (literalPart offset literal ++
            .expression ⟨⟨stop, codeStop + 1⟩, ⟨codeStart, codeStop⟩, String.ofList inner⟩ :: more,
            next)
termination_by input.length

/-- The parts of a quoted value end no earlier than they began. -/
theorem quotedParts_rest_length_le {quote : Char} {offset : Nat} {input : Text}
    {parts : List ValuePart} {next : Cursor}
    (done : quotedParts quote offset input = .ok (parts, next)) :
    next.rest.length ≤ input.length := by
  have shorter (text : Text) {c : Char} {rest : Text}
      (left : text.dropWhile (isLiteralChar quote) = c :: rest) : rest.length < text.length := by
    have dropped := (List.dropWhile_suffix (isLiteralChar quote) (l := text)).length_le
    rw [left] at dropped
    exact dropped
  fun_induction quotedParts quote offset input generalizing parts next with
  | case1 => simp at done
  | case2 =>
    rename_i left
    simp only [Except.ok.injEq, Prod.mk.injEq] at done
    obtain ⟨-, rfl⟩ := done
    exact Nat.le_of_lt (shorter _ left)
  | case3 => simp at done
  | case4 => simp at done
  | case5 =>
    rename_i less _ _ same ih
    simp only [Except.ok.injEq, Prod.mk.injEq] at done
    obtain ⟨-, rfl⟩ := done
    exact Nat.le_of_lt (Nat.lt_of_le_of_lt (ih same) less)

/-- The value made of the parts of a quoted value that starts at `offset`. -/
def Value.ofParts (offset : Nat) : List ValuePart → Value
  | [] => .text ⟨Span.empty offset, ""⟩
  | [.text literal] => .text literal
  | parts => .mixed parts

/-- The quoted value whose quote is the first token. -/
def quotedValue (cursor : Cursor) : Reading (Option Value) :=
  let inside := cursor.bump
  let quote := cursor.token.text.headD '"'
  match quotedParts quote inside.offset inside.rest with
  | .ok (parts, next) => ⟨some (.ofParts inside.offset parts), [], next⟩
  | .error missing =>
    let stop := cursor.toEnd
    ⟨none, [⟨.unexpectedEnd missing, Span.empty stop.offset⟩], stop⟩

/-- The attribute whose name is the first token, with its value if it has one. -/
def namedAttribute (cursor : Cursor) : Reading (Option Attribute) :=
  let start := cursor.token.span.start
  let name := String.ofList cursor.token.text
  let named (value : Value) (stop : Nat) : Attribute := .named ⟨start, stop⟩ name value
  let afterName := cursor.bump
  if afterName.token.kind = .equals then
    let place := afterName.bump
    match place.token.kind with
    | .doubleQuote | .singleQuote =>
      let reading := quotedValue place
      ⟨reading.value.map (named · reading.next.offset), reading.faults, reading.next⟩
    | .braceOpen =>
      match place.braced? with
      | none => ⟨none, [place.unclosedBrace], place.toEnd⟩
      | some braced =>
        let codeSpan := ⟨braced.innerStart, braced.innerStart + braced.inner.bytes⟩
        let embedded : Embedded := ⟨braced.span, codeSpan, String.ofList braced.inner⟩
        ⟨some (named (.expression embedded) braced.next.offset), [], braced.next⟩
    | .name | .word =>
      let (run, after) := unquotedRun (place.rest.dropWhile Text.isSeparator)
      let stop := place.token.span.start + run.bytes
      let literal : Literal := ⟨⟨place.token.span.start, stop⟩, String.ofList run⟩
      ⟨some (named (.text literal) stop), [], afterUnquoted run after stop⟩
    | _ => ⟨none, [⟨.missingValue name, place.token.span⟩], place⟩
  else ⟨some (named .absent afterName.offset), [], afterName⟩

/-- The attribute in braces whose opening is the first token: a spread if it starts with three
dots, and a shorthand otherwise. -/
def bracedAttribute (cursor : Cursor) : Reading (Option Attribute) :=
  match cursor.braced? with
  | none => ⟨none, [cursor.unclosedBrace], cursor.toEnd⟩
  | some braced =>
    let content := (trimmed braced.innerStart braced.inner).2
    let read : Attribute :=
      match Text.dropLead? ['.', '.', '.'] content with
      | some code => .spread braced.span (String.ofList (Text.trim code))
      | none => .shorthand braced.span (String.ofList content)
    ⟨some read, [], braced.next⟩

/-- The special tag in an opening tag whose opening is the first token; only code to attach can
stand there. -/
def attachAttribute (cursor : Cursor) : Reading (Option Attribute) :=
  match cursor.braced? with
  | none => ⟨none, [cursor.unclosedBrace], cursor.toEnd⟩
  | some braced =>
    let (keyword, embedded) := braced.withKeyword
    if keyword = "attach" then ⟨some (.attach braced.span embedded.code), [], braced.next⟩
    else ⟨none, [⟨.notInTag keyword, braced.span⟩], braced.next⟩

/-- The next attribute of a tag; none where the tag or the file ends. -/
def attribute? (cursor : Cursor) : Option (Reading (Option Attribute)) :=
  match cursor.token.kind with
  | .tagEnd | .selfClose | .endOfFile => none
  | .name | .word => some (namedAttribute cursor)
  | .braceOpen => some (bracedAttribute cursor)
  | .specialOpen => some (attachAttribute cursor)
  | kind => some ⟨none, [⟨.unexpectedInTag kind, cursor.token.span⟩], cursor.bump⟩

/-- As long as a token is left, jumping to the end takes something. -/
theorem toEnd_lt {cursor : Cursor} (more : cursor.token.kind ≠ .endOfFile) :
    cursor.toEnd.lt cursor :=
  Nat.lt_of_le_of_lt (Nat.zero_le _) (Cursor.bump_lt more)

/-- Reading a quoted value never goes back. -/
theorem quotedValue_le (cursor : Cursor) : (quotedValue cursor).next.le cursor := by
  unfold quotedValue
  simp only
  split
  case h_1 _ _ done =>
    exact Nat.le_trans (quotedParts_rest_length_le done) (Cursor.bump_le cursor)
  case h_2 => exact Cursor.toEnd_le cursor

/-- What follows an unquoted run is no longer than the input. -/
theorem length_unquotedRun_le (input : Text) : (unquotedRun input).2.length ≤ input.length := by
  have joined := congrArg List.length (unquotedRun_append input)
  rw [List.length_append] at joined
  omega

/-- An attribute with a name takes at least one character. -/
theorem namedAttribute_lt {cursor : Cursor} (more : cursor.token.kind ≠ .endOfFile) :
    (namedAttribute cursor).next.lt cursor := by
  have named := Cursor.bump_lt more
  refine Cursor.lt_of_le_of_lt ?_ named
  unfold namedAttribute
  simp only
  split
  case isFalse => exact Cursor.le_refl _
  case isTrue =>
    refine Cursor.le_trans ?_ (Cursor.bump_le _)
    split
    · exact quotedValue_le _
    · exact quotedValue_le _
    · split
      · exact Cursor.toEnd_le _
      · next found => exact Cursor.le_of_lt (Cursor.braced?_lt found)
    all_goals first
      | exact Cursor.le_refl _
      | exact Nat.le_trans (afterUnquoted_rest_length_le _ _ _) (Nat.le_trans
          (length_unquotedRun_le _) (List.dropWhile_suffix Text.isSeparator).length_le)

/-- An attribute in braces takes at least one character. -/
theorem bracedAttribute_lt {cursor : Cursor} (more : cursor.token.kind ≠ .endOfFile) :
    (bracedAttribute cursor).next.lt cursor := by
  unfold bracedAttribute
  split
  · exact toEnd_lt more
  · next found => exact Cursor.braced?_lt found

/-- An attachment takes at least one character. -/
theorem attachAttribute_lt {cursor : Cursor} (more : cursor.token.kind ≠ .endOfFile) :
    (attachAttribute cursor).next.lt cursor := by
  unfold attachAttribute
  split
  · exact toEnd_lt more
  · next found =>
    simp only
    split <;> exact Cursor.braced?_lt found

/-- Reading an attribute moves on. -/
theorem attribute?_lt {cursor : Cursor} {reading : Reading (Option Attribute)}
    (found : attribute? cursor = some reading) : reading.next.lt cursor := by
  have more : cursor.token.kind ≠ .endOfFile := by
    intro ended
    simp [attribute?, ended] at found
  unfold attribute? at found
  split at found
  case h_1 | h_2 | h_3 => simp at found
  case h_4 | h_5 =>
    obtain rfl := Option.some.inj found
    exact namedAttribute_lt more
  case h_6 =>
    obtain rfl := Option.some.inj found
    exact bracedAttribute_lt more
  case h_7 =>
    obtain rfl := Option.some.inj found
    exact attachAttribute_lt more
  case h_8 =>
    obtain rfl := Option.some.inj found
    exact Cursor.bump_lt more

/-- The attributes of a tag, up to its end. -/
def attributes (cursor : Cursor) : Reading (List Attribute) :=
  match found : attribute? cursor with
  | none => ⟨[], [], cursor⟩
  | some reading =>
    have : reading.next.rest.length < cursor.rest.length := attribute?_lt found
    let more := attributes reading.next
    ⟨reading.value.toList ++ more.value, reading.faults ++ more.faults, more.next⟩
termination_by cursor.rest.length

/-- Reading attributes never goes back. -/
theorem attributes_le (cursor : Cursor) : (attributes cursor).next.le cursor := by
  fun_induction attributes cursor with
  | case1 cursor => exact Cursor.le_refl cursor
  | case2 cursor reading found less more ih => exact Nat.le_of_lt (Nat.lt_of_le_of_lt ih less)

/-- An opening tag: the offset of its bracket, the name of the element, and the attributes. A tag
that closes itself ends with a slash, and its element has no content. -/
structure OpenTag where
  start : Nat
  name : String
  attributes : List Attribute
  selfClosing : Bool

/-- The opening tag that starts with the first token. A tag without a name directly after its
bracket is none; then only the bracket is read. -/
def openTag (cursor : Cursor) : Reading (Option OpenTag) :=
  let place := cursor.bump
  match cursor.tagName? with
  | none => ⟨none, [⟨.invalidTagName (String.ofList place.token.text), place.token.span⟩], place⟩
  | some name =>
    let reading := attributes place.bump
    let tag (selfClosing : Bool) : OpenTag :=
      ⟨cursor.token.span.start, name, reading.value, selfClosing⟩
    if reading.next.token.kind = .selfClose then
      ⟨some (tag true), reading.faults, reading.next.bump⟩
    else
      let ended := reading.next.expect .tagEnd
      ⟨some (tag false), reading.faults ++ ended.faults, ended.next⟩

/-- What an opening tag that is read is made of. -/
theorem openTag_eq_some {cursor : Cursor} {tag : OpenTag}
    (read : (openTag cursor).value = some tag) :
    cursor.tagName? = some tag.name ∧ tag.start = cursor.token.span.start ∧
      tag.attributes = (attributes cursor.bump.bump).value := by
  unfold openTag at read
  simp only at read
  split at read
  case h_1 => cases read
  case h_2 named =>
    split at read
    all_goals
      obtain rfl := Option.some.inj read
      exact ⟨named, rfl, rfl⟩

/-- The name of an opening tag is the name that follows its bracket. -/
theorem openTag_name {cursor : Cursor} {tag : OpenTag} (read : (openTag cursor).value = some tag) :
    cursor.tagName? = some tag.name := (openTag_eq_some read).1

/-- An opening tag starts where its bracket does. -/
theorem start_of_openTag {cursor : Cursor} {tag : OpenTag}
    (read : (openTag cursor).value = some tag) : tag.start = cursor.token.span.start :=
  (openTag_eq_some read).2.1

/-- The attributes of an opening tag are those read behind its bracket and its name. -/
theorem openTag_attributes {cursor : Cursor} {tag : OpenTag}
    (read : (openTag cursor).value = some tag) :
    tag.attributes = (attributes cursor.bump.bump).value := (openTag_eq_some read).2.2

/-- Where no opening tag is read there is a fault. -/
theorem openTag_of_clean {cursor : Cursor} (noFaults : (openTag cursor).faults = []) :
    ∃ tag, (openTag cursor).value = some tag := by
  unfold openTag at noFaults ⊢
  simp only at noFaults ⊢
  split
  case h_1 unnamed =>
    rw [unnamed] at noFaults
    cases noFaults
  case h_2 => split <;> exact ⟨_, rfl⟩

/-- Reading an opening tag moves past its bracket at least. -/
theorem openTag_lt {cursor : Cursor} (more : cursor.token.kind ≠ .endOfFile) :
    (openTag cursor).next.lt cursor := by
  refine Cursor.lt_of_le_of_lt ?_ (Cursor.bump_lt more)
  unfold openTag
  simp only
  split
  · exact Cursor.le_refl _
  · have read := Cursor.le_trans (attributes_le cursor.bump.bump) (Cursor.bump_le cursor.bump)
    split
    · exact Cursor.le_trans (Cursor.bump_le _) read
    · exact Cursor.le_trans (Cursor.expect_le _ _) read

end ClassHoist.Markup
