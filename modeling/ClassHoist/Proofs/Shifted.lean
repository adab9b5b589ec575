import ClassHoist.Proofs.ReachedPlaces
import ClassHoist.Proofs.Respan

/-! # Reading further on

Where a text starts has no influence on what is read from it. Each way of reading gives the same at
every offset, with all spans shifted by as much.
-/

namespace ClassHoist.Markup

variable (length : Nat)

/-- The place with as much more before it. -/
def Cursor.shift (cursor : Cursor) : Cursor := ⟨length + cursor.offset, cursor.rest⟩

/-- The token further on. -/
def Token.shift (token : Token) : Token := { token with span := token.span.shift length }

/-- The construct in braces further on. -/
def Braced.shift (braced : Braced) : Braced :=
  ⟨braced.span.shift length, length + braced.innerStart, braced.inner, braced.next.shift length⟩

/-- The opening tag further on. -/
def OpenTag.shift (tag : OpenTag) : OpenTag :=
  { tag with
    start := length + tag.start
    attributes := tag.attributes.map (Attribute.mapSpans (.shift length)) }

/-- The script or style further on. -/
def RawElement.shift (raw : RawElement) : RawElement :=
  { raw with
    span := raw.span.shift length
    contentSpan := raw.contentSpan.shift length
    attributes := raw.attributes.map (Attribute.mapSpans (.shift length)) }

/-- The same reading further on, of a value that is `move` of the other value. -/
def Reading.shift {Content : Type} (move : Content → Content) (reading : Reading Content) :
    Reading Content :=
  ⟨move reading.value, reading.faults.map (Fault.mapSpans (.shift length)),
    reading.next.shift length⟩

namespace Cursor

variable (cursor : Cursor)

/-- Further on in the source, the same token is next. -/
theorem token_shift : (cursor.shift length).token = cursor.token.shift length := by
  simp only [token, firstToken, shift, Token.shift, Span.shift, Nat.add_assoc]

/-- Stepping over a token is the same step further on. -/
theorem bump_shift : (cursor.shift length).bump = cursor.bump.shift length := by
  simp only [bump, firstToken, shift, Nat.add_assoc]

/-- Passing over some text is the same further on. -/
theorem past_shift (taken rest : Text) :
    (cursor.shift length).past taken rest = (cursor.past taken rest).shift length := by
  simp only [past, shift, Nat.add_assoc]

/-- Jumping to the end is the same further on. -/
theorem toEnd_shift : (cursor.shift length).toEnd = cursor.toEnd.shift length :=
  past_shift length cursor cursor.rest []

/-- The name behind the bracket is the same further on. -/
theorem tagName?_shift : (cursor.shift length).tagName? = cursor.tagName? := by
  simp only [tagName?, bump_shift, token_shift, Token.shift, Span.shift, Nat.add_right_inj]

/-- Stepping over a token of a given kind is the same further on. -/
theorem skip_shift (kind : TokenKind) :
    (cursor.shift length).skip kind = (cursor.skip kind).shift length := by
  simp only [skip, token_shift, bump_shift, Token.shift]
  split <;> rfl

/-- Asking for a token of a given kind has the same answer further on. -/
theorem expect_shift (kind : TokenKind) :
    (cursor.shift length).expect kind = (cursor.expect kind).shift length id := by
  simp only [expect, missing, token_shift, bump_shift, Token.shift]
  split
  · rfl
  · split <;> rfl

/-- A brace that is not closed is the same fault further on. -/
theorem unclosedBrace_shift :
    (cursor.shift length).unclosedBrace = cursor.unclosedBrace.mapSpans (.shift length) := by
  simp only [unclosedBrace, token_shift, Token.shift, Fault.mapSpans]

/-- A construct in braces is the same further on. -/
theorem braced?_shift :
    (cursor.shift length).braced? = cursor.braced?.map (Braced.shift length) := by
  simp only [braced?, bump_shift, token_shift, Token.shift, Option.bind_eq_bind, Option.pure_def,
    Option.map_bind]
  simp only [shift, Braced.shift, Span.shift, Nat.add_assoc, Function.comp_def, Option.map_some]

end Cursor

/-- Text is trimmed in the same way further on. -/
theorem trimmed_shift (offset : Nat) (text : Text) :
    trimmed (length + offset) text =
      ((trimmed offset text).1.shift length, (trimmed offset text).2) := by
  simp only [trimmed, Span.shift, Nat.add_assoc]

/-- A keyword is split off in the same way further on. -/
theorem splitKeyword_shift (offset : Nat) (text : Text) :
    splitKeyword (length + offset) text =
      ((splitKeyword offset text).1, (splitKeyword offset text).2.1.shift length,
        (splitKeyword offset text).2.2) := by
  simp only [splitKeyword, trimmed, Span.shift, Nat.add_assoc]

namespace Braced

variable (braced : Braced)

/-- The expression in braces is the same further on. -/
theorem embedded_shift :
    (braced.shift length).embedded = braced.embedded.mapSpans (.shift length) := by
  simp only [embedded, shift, trimmed_shift, Embedded.mapSpans]

/-- The keyword of a construct in braces and what follows it are the same further on. -/
theorem withKeyword_shift :
    (braced.shift length).withKeyword =
      (braced.withKeyword.1, braced.withKeyword.2.mapSpans (.shift length)) := by
  simp only [withKeyword, shift, splitKeyword_shift, Embedded.mapSpans]

end Braced

/-- The literal part of a value is the same further on. -/
theorem literalPart_shift (offset : Nat) (text : Text) :
    literalPart (length + offset) text =
      (literalPart offset text).map (ValuePart.mapSpans (.shift length)) := by
  unfold literalPart
  split
  · rfl
  · simp only [List.map_cons, List.map_nil, ValuePart.mapSpans, Literal.mapSpans, Span.shift,
      Nat.add_assoc]

/-- A quoted value goes on behind an expression in it. -/
theorem quotedParts_eq (quote : Char) (offset : Nat) (input : Text) :
    quotedParts quote offset input =
      let literal := input.takeWhile (isLiteralChar quote)
      let stop := offset + Text.bytes literal
      match input.dropWhile (isLiteralChar quote) with
      | [] => .error .closingQuote
      | c :: rest =>
        if c = quote then .ok (literalPart offset literal, ⟨stop + quote.utf8Size, rest⟩)
        else
          match Expression.closing? '\x7d' rest with
          | none => .error (.token .braceClose)
          | some (inner, after) =>
            (quotedParts quote (stop + 1 + inner.bytes + 1) after).map fun read =>
              (literalPart offset literal ++ .expression ⟨⟨stop, stop + 1 + inner.bytes + 1⟩,
                ⟨stop + 1, stop + 1 + inner.bytes⟩, String.ofList inner⟩ :: read.1, read.2) := by
  rw [quotedParts]
  simp only
  split
  case h_1 left => simp only [left]
  case h_2 c rest left =>
    simp only [left]
    split
    · rfl
    · split
      · next unclosed => simp only [unclosed]
      · next closed =>
        simp only [closed]
        split
        · next failed => rw [failed]; rfl
        · next done => rw [done]; rfl

/-- Behind an expression in a quoted value, less text is left. -/
theorem length_afterExpression_lt {quote c : Char} {input rest inner after : Text}
    (left : input.dropWhile (isLiteralChar quote) = c :: rest)
    (closed : Expression.closing? '\x7d' rest = some (inner, after)) :
    after.length < input.length := by
  have shorter := Expression.length_closing?_lt closed
  have dropped := (List.dropWhile_suffix (isLiteralChar quote) (l := input)).length_le
  rw [left, List.length_cons] at dropped
  omega

/-- The parts of a quoted value are the same further on. -/
theorem quotedParts_shift (quote : Char) (offset : Nat) (input : Text) :
    quotedParts quote (length + offset) input = (quotedParts quote offset input).map fun read =>
      (read.1.map (ValuePart.mapSpans (.shift length)), read.2.shift length) := by
  rw [quotedParts_eq quote (length + offset), quotedParts_eq quote offset]
  cases left : input.dropWhile (isLiteralChar quote) with
  | nil => rfl
  | cons c rest =>
    by_cases same : c = quote
    · simp only [same, ↓reduceIte, literalPart_shift, Nat.add_assoc, Except.map, Cursor.shift]
    · cases closed : Expression.closing? '\x7d' rest with
      | none => simp only [same, ↓reduceIte, closed, Except.map]
      | some cut =>
        obtain ⟨inner, after⟩ := cut
        have behind := quotedParts_shift quote
          (offset + Text.bytes (input.takeWhile (isLiteralChar quote)) + 1 + inner.bytes + 1) after
        simp only [Nat.add_assoc] at behind
        simp only [same, ↓reduceIte, closed, Nat.add_assoc, behind, literalPart_shift]
        cases quotedParts quote _ after with
        | error missing => rfl
        | ok read =>
          simp only [Except.map, List.map_append, List.map_cons, ValuePart.mapSpans,
            Embedded.mapSpans, Span.shift]
termination_by input.length
decreasing_by exact length_afterExpression_lt left closed

/-- Parts further on make the same value further on. -/
theorem ofParts_shift (offset : Nat) (parts : List ValuePart) :
    Value.ofParts (length + offset) (parts.map (ValuePart.mapSpans (.shift length))) =
      (Value.ofParts offset parts).mapSpans (.shift length) := by
  match parts with
  | [] => rfl
  | [.text literal] => rfl
  | [.expression embedded] => rfl
  | first :: second :: rest => 
    cases first <;> rfl

/-- A quoted value is the same further on. -/
theorem quotedValue_shift (cursor : Cursor) :
    quotedValue (cursor.shift length) =
      (quotedValue cursor).shift length (Option.map (Value.mapSpans (.shift length))) := by
  simp only [quotedValue, Cursor.bump_shift, Cursor.token_shift, Token.shift, Cursor.toEnd_shift]
  simp only [Cursor.shift, quotedParts_shift]
  cases quotedParts (cursor.token.text.headD '"') cursor.bump.offset cursor.bump.rest with
  | error missing => rfl
  | ok read => simp only [Except.map, ofParts_shift]; rfl

/-- A tag goes on behind an unquoted value in the same way further on. -/
theorem afterUnquoted_shift (run after : Text) (stop : Nat) :
    afterUnquoted run after (length + stop) = (afterUnquoted run after stop).shift length := by
  unfold afterUnquoted
  split <;> rfl

/-- An attribute with a name is the same further on. -/
theorem namedAttribute_shift (cursor : Cursor) :
    namedAttribute (cursor.shift length) =
      (namedAttribute cursor).shift length (Option.map (Attribute.mapSpans (.shift length))) := by
  simp only [namedAttribute, Cursor.bump_shift, Cursor.token_shift, Token.shift]
  by_cases equals : cursor.bump.token.kind = .equals
  · simp only [equals, ↓reduceIte]
    split
    · rw [quotedValue_shift]
      simp only [Reading.shift, Option.map_map]
      rfl
    · rw [quotedValue_shift]
      simp only [Reading.shift, Option.map_map]
      rfl
    · rw [Cursor.braced?_shift]
      cases cursor.bump.bump.braced? with
      | none =>
        simp only [Option.map_none, Cursor.unclosedBrace_shift, Cursor.toEnd_shift]
        rfl
      | some braced =>
        simp only [Option.map_some, Braced.shift, Nat.add_assoc]
        rfl
    · simp only [Cursor.shift, Span.shift, afterUnquoted_shift, Nat.add_assoc]
      rfl
    · simp only [Cursor.shift, Span.shift, afterUnquoted_shift, Nat.add_assoc]
      rfl
    · rfl
  · simp only [equals, ↓reduceIte]
    rfl

/-- An attribute in braces is the same further on. -/
theorem bracedAttribute_shift (cursor : Cursor) :
    bracedAttribute (cursor.shift length) =
      (bracedAttribute cursor).shift length (Option.map (Attribute.mapSpans (.shift length))) := by
  simp only [bracedAttribute, Cursor.braced?_shift]
  cases cursor.braced? with
  | none =>
    simp only [Option.map_none, Cursor.unclosedBrace_shift, Cursor.toEnd_shift]
    rfl
  | some braced =>
    simp only [Option.map_some, Braced.shift, trimmed_shift]
    cases Text.dropLead? ['.', '.', '.'] (trimmed braced.innerStart braced.inner).2 <;> rfl

/-- An attachment is the same further on. -/
theorem attachAttribute_shift (cursor : Cursor) :
    attachAttribute (cursor.shift length) =
      (attachAttribute cursor).shift length (Option.map (Attribute.mapSpans (.shift length))) := by
  simp only [attachAttribute, Cursor.braced?_shift]
  cases cursor.braced? with
  | none =>
    simp only [Option.map_none, Cursor.unclosedBrace_shift, Cursor.toEnd_shift]
    rfl
  | some braced =>
    simp only [Option.map_some, Braced.withKeyword_shift]
    split <;> rfl

/-- Whatever attribute begins at a place, the same one begins further on. -/
theorem attribute?_shift (cursor : Cursor) :
    attribute? (cursor.shift length) = (attribute? cursor).map
      (Reading.shift length (Option.map (Attribute.mapSpans (.shift length)))) := by
  simp only [attribute?, Cursor.token_shift, Token.shift, Cursor.bump_shift]
  split
  · rfl
  · rfl
  · rfl
  · rw [namedAttribute_shift, Option.map_some]
  · rw [namedAttribute_shift, Option.map_some]
  · rw [bracedAttribute_shift, Option.map_some]
  · rw [attachAttribute_shift, Option.map_some]
  · rfl

/-- A list of attributes is the same further on. -/
theorem attributes_shift (cursor : Cursor) :
    attributes (cursor.shift length) =
      (attributes cursor).shift length (List.map (Attribute.mapSpans (.shift length))) := by
  fun_induction attributes cursor with
  | case1 cursor ended =>
    rw [attributes_of_attribute?_eq_none (by rw [attribute?_shift, ended, Option.map_none])]
    rfl
  | case2 cursor reading found _ more ih =>
    have shifted : attribute? (cursor.shift length) = some (reading.shift length
        (Option.map (Attribute.mapSpans (.shift length)))) := by
      rw [attribute?_shift, found, Option.map_some]
    rw [attributes_of_attribute? shifted]
    simp only [Reading.shift, ih, List.map_append, more]
    cases reading.value <;> rfl

/-- An opening tag is the same further on. -/
theorem openTag_shift (cursor : Cursor) :
    openTag (cursor.shift length) =
      (openTag cursor).shift length (Option.map (OpenTag.shift length)) := by
  simp only [openTag, Cursor.tagName?_shift, Cursor.bump_shift, Cursor.token_shift, Token.shift,
    attributes_shift]
  cases cursor.tagName? with
  | none => rfl
  | some name =>
    simp only [Reading.shift, Cursor.token_shift, Token.shift, Cursor.bump_shift,
      Cursor.expect_shift]
    split
    · rfl
    · simp only [List.map_append]
      rfl

/-- A closing tag is read in the same way further on. -/
theorem closingTag_shift (cursor : Cursor) (name : String) :
    closingTag (cursor.shift length) name = (closingTag cursor name).shift length id := by
  simp only [closingTag, Cursor.token_shift, Token.shift, Cursor.tagName?_shift, Cursor.bump_shift]
  split
  · split
    · rw [Cursor.expect_shift]
    · rfl
  · rfl

/-- The content of a raw element is the same further on. -/
theorem rawContent_shift (cursor : Cursor) (name : String) :
    rawContent (cursor.shift length) name = ((rawContent cursor name).1.shift length,
      (rawContent cursor name).2.1, (rawContent cursor name).2.2.shift length) := by
  simp only [rawContent, Cursor.past_shift]
  rfl

/-- A run of text from a place on, as a node unless it is empty. -/
def Cursor.run (cursor : Cursor) (text rest : Text) : List Node :=
  if text.isEmpty then []
  else [.text ⟨cursor.offset, (cursor.past text rest).offset⟩ (String.ofList text)]

/-- A run of text is the same node further on. -/
theorem Cursor.run_shift (cursor : Cursor) (text rest : Text) :
    (cursor.shift length).run text rest =
      (cursor.run text rest).map (Node.mapSpans (.shift length)) := by
  unfold Cursor.run
  rw [Cursor.past_shift]
  cases text <;> rfl

/-- Text and expressions go on behind an expression. -/
theorem textContent_eq (name : String) (cursor : Cursor) :
    textContent name cursor =
      let found := Text.spanUntil
        (fun text => Text.startsWith ['\x7b'] text || Text.startsWith (closingLead name) text)
        cursor.rest
      let place := cursor.past found.1 found.2
      match found.2 with
      | '\x7b' :: inside =>
        match Expression.closing? '\x7d' inside with
        | none => ⟨cursor.run found.1 found.2, [⟨.unexpectedEnd (.token .braceClose),
            ⟨place.offset, place.offset + 1⟩⟩], place.toEnd⟩
        | some (inner, after) =>
          let stop := place.offset + 1 + inner.bytes + 1
          let (codeSpan, code) := trimmed (place.offset + 1) inner
          let more := textContent name ⟨stop, after⟩
          ⟨cursor.run found.1 found.2 ++
            .expression ⟨⟨place.offset, stop⟩, codeSpan, String.ofList code⟩ :: more.value,
            more.faults, more.next⟩
      | _ => ⟨cursor.run found.1 found.2, [], place⟩ := by
  rw [textContent]
  simp only
  have leading (text rest : Text) : (if text.isEmpty then [] else
      [Node.text ⟨cursor.offset, (cursor.past text rest).offset⟩ (String.ofList text)]) =
        cursor.run text rest := rfl
  simp only [leading]
  split
  · next left =>
    simp only [left]
    split
    · next unclosed => simp only [unclosed]
    · next closed => simp only [closed]
  · next notBrace =>
    split
    · next left => exact absurd left (notBrace _)
    · rfl

/-- The text of a text area is the same further on. -/
theorem textContent_shift (name : String) (cursor : Cursor) :
    textContent name (cursor.shift length) =
      (textContent name cursor).shift length (List.map (Node.mapSpans (.shift length))) := by
  have rest : (cursor.shift length).rest = cursor.rest := rfl
  rw [textContent_eq name (cursor.shift length), textContent_eq name cursor]
  simp only [rest, Cursor.past_shift]
  generalize found : Text.spanUntil (fun text => Text.startsWith ['\x7b'] text ||
    Text.startsWith (closingLead name) text) cursor.rest = cut
  obtain ⟨before, behind⟩ := cut
  simp only
  split
  · next inside =>
    cases closed : Expression.closing? '\x7d' inside with
    | none =>
      simp only [Cursor.toEnd_shift, Cursor.run_shift]
      simp only [Cursor.shift, Nat.add_assoc]
      rfl
    | some cut =>
      obtain ⟨inner, after⟩ := cut
      have deeper := textContent_shift name
        ⟨(cursor.past before ('\x7b' :: inside)).offset + 1 + inner.bytes + 1, after⟩
      simp only [Cursor.shift, Nat.add_assoc] at deeper
      simp only [Cursor.run_shift]
      simp only [Cursor.shift, Nat.add_assoc, trimmed_shift, deeper]
      simp only [Reading.shift, List.map_append, List.map_cons]
      rfl
  · simp only [Cursor.run_shift]
    rfl
termination_by cursor.rest.length
decreasing_by
  have cut := congrArg Prod.snd found
  exact length_afterClosing_lt cut closed

/-- A script or style is the same further on. -/
theorem rawElement_shift (cursor : Cursor) :
    rawElement (cursor.shift length) =
      (rawElement cursor).shift length (Option.map (RawElement.shift length)) := by
  simp only [rawElement, openTag_shift, Reading.shift]
  cases (openTag cursor).value with
  | none => rfl
  | some tag =>
    simp only [Option.map_some, OpenTag.shift, rawContent_shift, closingTag_shift, Reading.shift]
    split
    · rfl
    · simp only [List.map_append]
      rfl

/-- Moving the spans of a value moves the leading text with it. -/
theorem leadingText?_shift (f : Span → Span) (value : Value) :
    (value.mapSpans f).leadingText? = value.leadingText?.map (Literal.mapSpans f) := by
  cases value with
  | absent | text | expression => rfl
  | mixed parts =>
    cases parts with
    | nil => rfl
    | cons part rest => cases part <;> rfl

/-- What an attribute declares does not depend on its spans. -/
theorem declares_mapSpans (f : Span → Span) (names : List String) (test : Option String → Bool)
    (attr : Attribute) : (attr.mapSpans f).declares names test = attr.declares names test := by
  cases attr with
  | named span name value =>
    simp only [Attribute.mapSpans, Attribute.declares, leadingText?_shift, Option.map_map]
    rfl
  | spread | shorthand | attach => rfl

/-- A raw element makes the same script further on. -/
theorem ofRaw_shift (raw : RawElement) :
    Script.ofRaw (raw.shift length) = (Script.ofRaw raw).mapSpans (.shift length) := by
  simp only [Script.ofRaw, RawElement.shift, List.any_map, Function.comp_def, declares_mapSpans]
  rfl

/-- A raw element makes the same style further on. -/
theorem styleOfRaw_shift (raw : RawElement) :
    Style.ofRaw (raw.shift length) = (Style.ofRaw raw).mapSpans (.shift length) := rfl

end ClassHoist.Markup
