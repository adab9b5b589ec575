import ClassHoist.Markup.Feed
import ClassHoist.Proofs.ByteScanAgreement
import ClassHoist.Proofs.Seams
import Mathlib.Data.List.TakeWhile

/-! # Feeds at places of a source

A feed that is at a place of the source is there with both its tokens and its bytes (`Cursor.feed`).
From there it reads what the cursor reads: no cut fails, and it ends up at the place where the cursor
does (`Cursor.sync_feed`, `Cursor.braced_feed`).
-/

namespace ClassHoist.Markup

variable {source : Text} {cursor : Cursor}

/-- The cursor is at a place of the source. -/
abbrev Cursor.In (cursor : Cursor) (source : Text) : Prop := (Cursor.start source).Reaches cursor

/-- The feed that is at the place of a cursor. -/
def Cursor.feed (cursor : Cursor) : Feed := ⟨cursor.tokens, cursor.offset⟩

namespace Cursor

/-- A place of a source has a text before it, of which the offset is the size. -/
theorem In.exists_before (within : cursor.In source) :
    ∃ before, source = before ++ cursor.rest ∧ cursor.offset = Text.bytes before := by
  obtain ⟨before, whole, counted⟩ := within
  exact ⟨before, whole, by simpa [start] using counted⟩

/-- The end of a source is at its size. -/
theorem In.toEnd_offset (within : cursor.In source) : cursor.toEnd.offset = source.bytes := by
  obtain ⟨before, rfl, counted⟩ := within.exists_before
  rw [toEnd, past, counted, Text.bytes_append]

/-- The text behind the cursor is cut off the source. -/
theorem In.cutFrom (within : cursor.In source) :
    cutFrom source cursor.offset = some cursor.rest := by
  obtain ⟨before, rfl, counted⟩ := within.exists_before
  rw [Markup.cutFrom, counted, Text.splitAt?_append]
  rfl

/-- What follows a place of the source stands there. -/
theorem In.stands (within : cursor.In source) {front back : Text}
    (split : cursor.rest = front ++ back) :
    source.Stands cursor.offset (cursor.offset + front.bytes) front := by
  obtain ⟨before, whole, counted⟩ := within.exists_before
  exact ⟨before, back, by rw [whole, split], counted.symm, rfl⟩

/-- What stands between two places stands in the source. -/
theorem Holds.stands_in {last : Cursor} {span : Span} {text : Text} (within : cursor.In source)
    (holds : cursor.Holds last span text) : source.Stands span.start span.stop text := by
  obtain ⟨before, whole, counted⟩ := within.exists_before
  obtain ⟨lead, after, isRest, startIs, stopIs, -⟩ := holds
  refine ⟨before ++ lead, after ++ last.rest, ?_, ?_, stopIs⟩
  · rw [whole, isRest, List.append_assoc]
  · rw [startIs, counted, Text.bytes_append]

/-- What is held between places of a source can be cut out of it. -/
theorem Holds.cut {last : Cursor} {span : Span} {text : Text} (within : cursor.In source)
    (holds : cursor.Holds last span text) : cut source span = some text :=
  (holds.stands_in within).slice?_eq

@[simp] theorem token_feed (source : Text) (cursor : Cursor) :
    cursor.feed.token source = cursor.token := by
  obtain ⟨rest, same⟩ := List.head?_eq_some_iff.mp (head?_tokens cursor)
  rw [Feed.token, feed, same]
  rfl

@[simp] theorem offset_feed (cursor : Cursor) : cursor.feed.offset = cursor.offset := rfl

/-- Stepping over a token is the same for a feed. -/
theorem bump_feed (source : Text) (more : cursor.token.kind ≠ .endOfFile) :
    cursor.feed.bump source = cursor.bump.feed := by
  have passed : cursor.offset ≤ cursor.token.span.stop := (reaches_bump cursor).offset_le
  simp only [Feed.bump, token_feed, offset_feed, Nat.max_eq_right passed]
  simp only [feed, tokens_of_more more, List.tail_cons, offset_bump]

/-- A feed goes on behind a seam with the tokens of the text there. -/
theorem sync_feed {front back : Text} (split : cursor.rest = front ++ back)
    (seam : Seam front back) :
    cursor.feed.sync (cursor.offset + Text.bytes front) = (cursor.past front back).feed := by
  have offset : max cursor.offset (cursor.offset + Text.bytes front) =
      cursor.offset + Text.bytes front := Nat.max_eq_right (Nat.le_add_right _ _)
  simp only [Feed.sync, offset_feed, offset]
  refine congrArg₂ Feed.mk ?_ rfl
  apply dropWhile_tokens _ split seam
  · intro token named early
    simp only [early, decide_true, Bool.true_and, bne_iff_ne, ne_eq, named, not_false_eq_true]
  · intro token late
    simp only [Nat.not_lt_of_le late, decide_false, Bool.false_and]

/-- Where the source goes on, a feed farther on has less of it left. -/
theorem left_lt {feed : Feed} {last : Cursor} (inside : last.In source)
    (goesOn : cursor.offset < last.offset) (farther : cursor.offset < feed.offset) :
    feed.left source < cursor.feed.left source := by
  have upTo := Text.bytes_le_of_isBoundary inside.isBoundary
  simp only [Feed.left, offset_feed]
  omega

/-- Jumping to the end is the same for a feed. -/
theorem toEnd_feed (within : cursor.In source) :
    cursor.feed.toEnd source = cursor.toEnd.feed := by
  have seam := sync_feed (List.append_nil cursor.rest).symm (.of_nil cursor.rest)
  rwa [show cursor.offset + Text.bytes cursor.rest = source.bytes from within.toEnd_offset] at seam

/-- A token is held between the place before it and the place behind it. -/
theorem token_holds (cursor : Cursor) :
    cursor.Holds cursor.bump cursor.token.span cursor.token.text :=
  ⟨cursor.rest.takeWhile Text.isSeparator, [], by rw [List.nil_append, ← rest_eq],
    token_start cursor, token_stop cursor, rfl⟩

/-- The text of a token can be cut out of the source. -/
theorem cut_token (within : cursor.In source) :
    Markup.cut source cursor.token.span = some cursor.token.text :=
  (token_holds cursor).cut within

/-- A feed finds the name behind a bracket that the cursor finds. -/
theorem tagName?_feed (within : cursor.In source) (more : cursor.token.kind ≠ .endOfFile) :
    cursor.feed.tagName? source = some cursor.tagName? := by
  obtain ⟨rest, same⟩ := List.head?_eq_some_iff.mp (head?_tokens cursor.bump)
  unfold Feed.tagName? tagName?
  rw [token_feed]
  simp only [feed, tokens_of_more more, List.tail_cons, same]
  rw [cut_token (within.trans (reaches_bump cursor))]
  split <;> rfl

/-- Stepping over a token of a given kind is the same for a feed. -/
theorem skip_feed (source : Text) (cursor : Cursor) {kind : TokenKind}
    (named : kind ≠ .endOfFile) : cursor.feed.skip source kind = (cursor.skip kind).feed := by
  unfold Feed.skip skip
  rw [token_feed]
  split
  · next same => exact bump_feed source (same ▸ named)
  · rfl

/-- A missing token is the same fault for a feed. -/
theorem missing_feed (source : Text) (cursor : Cursor) (kind : TokenKind) :
    cursor.feed.missing source kind = cursor.missing kind := by
  unfold Feed.missing missing
  rw [token_feed]

end Cursor

/-- What was read at a place, as it is read from a feed. -/
def Reading.intake {Content : Type} (reading : Reading Content) : Intake Content :=
  ⟨reading.value, reading.faults, reading.next.feed⟩

namespace Cursor

/-- Asking for a token of a given kind has the same answer for a feed. -/
theorem expect_feed (source : Text) (cursor : Cursor) {kind : TokenKind}
    (named : kind ≠ .endOfFile) :
    cursor.feed.expect source kind = (cursor.expect kind).intake := by
  unfold Feed.expect expect Reading.intake
  rw [token_feed, missing_feed]
  split
  · next same => rw [bump_feed source (same ▸ named)]
  · rfl

/-- The spans of a construct in braces. -/
def bracedSpans (braced : Braced) : Span × Span :=
  (braced.span, ⟨braced.innerStart, braced.innerStart + Text.bytes braced.inner⟩)

/-- The reading of a construct in braces, with the fault of one that is not closed. -/
def bracedReading (cursor : Cursor) : Reading (Option Braced) :=
  match cursor.braced? with
  | some braced => ⟨some braced, [], braced.next⟩
  | none => ⟨none, [cursor.unclosedBrace], cursor.toEnd⟩

/-- A feed finds the construct in braces that the cursor finds, or the same fault. -/
theorem braced_feed (within : cursor.In source) :
    cursor.feed.braced source = some
      ⟨cursor.bracedReading.value.map bracedSpans, cursor.bracedReading.faults,
        cursor.bracedReading.next.feed⟩ := by
  obtain ⟨before, whole, counted⟩ := In.exists_before (within.trans (reaches_bump cursor))
  have opened : cursor.token.span.stop = Text.bytes before := (offset_bump cursor).symm.trans counted
  unfold Feed.braced bracedReading braced?
  simp only [token_feed, opened, Expression.findClosing_eq whole]
  cases closed : Expression.closing? '\x7d' cursor.bump.rest with
  | none =>
    simp only [Option.map_none, Option.bind_eq_bind, Option.bind_some, Option.pure_def,
      Option.bind_none]
    rw [toEnd_feed within]
    rfl
  | some parts =>
    obtain ⟨inner, after⟩ := parts
    have split : cursor.rest = cursor.rest.takeWhile Text.isSeparator ++ cursor.token.text ++
        inner ++ ['\x7d'] ++ after := by
      conv_lhs => rw [rest_eq, Expression.closing?_eq_some closed]
      simp
    have place : Text.bytes before + Text.bytes inner + 1 = cursor.offset +
        Text.bytes (cursor.rest.takeWhile Text.isSeparator ++ cursor.token.text ++ inner ++
          ['\x7d']) := by
      rw [← opened, token_stop, token_start]
      simp only [Text.bytes_append, Nat.add_assoc]
      rfl
    simp only [Option.map_some, Option.bind_eq_bind, Option.bind_some, Option.pure_def]
    rw [place, sync_feed split (.of_closing (.inr (.inl rfl)) _ _), ← place]
    simp only [bracedSpans, counted, past, ← place]

end Cursor

variable {start stop : Nat} {text : Text}

/-- Trimming on the left drops the white space in front and nothing else. -/
theorem takeWhile_append_trimLeft (text : Text) :
    text.takeWhile Text.isBlank ++ Text.trimLeft text = text :=
  List.takeWhile_append_dropWhile

/-- Trimming on the right drops some text at the end. -/
theorem exists_trimLeft_eq (text : Text) : ∃ after, Text.trimLeft text = Text.trim text ++ after := by
  obtain ⟨lead, split⟩ := List.dropWhile_suffix Text.isBlank (l := (Text.trimLeft text).reverse)
  refine ⟨lead.reverse, ?_⟩
  rw [Text.trim, Text.trimRight, ← List.reverse_append, split, List.reverse_reverse]

/-- A text that is not white space alone keeps what stands in front of its end. -/
theorem trimRight_eq (solid : Text.trimLeft text ≠ []) :
    Text.trimRight text = text.takeWhile Text.isBlank ++ Text.trim text := by
  obtain ⟨c, rest, isCons⟩ := List.exists_cons_of_ne_nil solid
  have first : Text.isBlank c = false := by
    apply head?_dropWhile text
    rw [show text.dropWhile Text.isBlank = c :: rest from isCons]
    rfl
  have kept : ((Text.trimLeft text).reverse.dropWhile Text.isBlank).isEmpty = false := by
    rw [List.isEmpty_eq_false_iff, isCons, List.reverse_cons]
    intro empty
    have blank := List.dropWhile_eq_nil_iff.mp empty c List.mem_concat_self
    rw [first] at blank
    cases blank
  conv_lhs => rw [← takeWhile_append_trimLeft text]
  rw [Text.trim, Text.trimRight, Text.trimRight, List.reverse_append, List.dropWhile_append, kept,
    if_neg Bool.false_ne_true, List.reverse_append, List.reverse_reverse]

/-- The part of a text without the white space around it stands where it is said to. -/
theorem trimmed_stands (stands : source.Stands start stop text) :
    source.Stands (trimmed start text).1.start (trimmed start text).1.stop
      (trimmed start text).2 := by
  obtain ⟨before, after, whole, startIs, -⟩ := stands
  obtain ⟨trail, isLeft⟩ := exists_trimLeft_eq text
  have split := takeWhile_append_trimLeft text
  refine ⟨before ++ text.takeWhile Text.isBlank, trail ++ after, ?_, ?_, rfl⟩
  · conv_lhs => rw [whole, ← split, isLeft]
    simp only [trimmed, List.append_assoc]
  · rw [Text.bytes_append, startIs]
    rfl

/-- A span is trimmed in the source as the text at it is. -/
theorem trimSpan_eq (stands : source.Stands start stop text) :
    trimSpan source ⟨start, stop⟩ = some (trimmed start text).1 := by
  have found : cut source ⟨start, stop⟩ = some text := stands.slice?_eq
  have counts := congrArg Text.bytes (takeWhile_append_trimLeft text)
  rw [Text.bytes_append] at counts
  have front : text.bytes - (Text.trimLeft text).bytes =
      Text.bytes (text.takeWhile Text.isBlank) := by omega
  simp only [trimSpan, found, Option.bind_eq_bind, Option.bind_some, Option.pure_def, front, trimmed]
  refine congrArg some (congrArg (Span.mk _) ?_)
  by_cases solid : Text.trimLeft text = []
  · have blank : Text.trimRight text = [] := by
      have all : ∀ c ∈ text, Text.isBlank c = true := List.dropWhile_eq_nil_iff.mp solid
      rw [Text.trimRight, List.reverse_eq_nil_iff, List.dropWhile_eq_nil_iff]
      exact fun c inReverse => all c (List.mem_reverse.mp inReverse)
    rw [blank, Text.trim, solid]
    exact Nat.max_eq_left (Nat.le_add_right _ _)
  · rw [trimRight_eq solid, Text.bytes_append, ← Nat.add_assoc]
    exact Nat.max_eq_right (Nat.le_add_right _ _)

/-- What follows the keyword of a text stands where it is said to. -/
theorem afterKeyword_stands (stands : source.Stands start stop text) :
    source.Stands (start + Text.bytes (text.takeWhile Char.isAlpha)) stop
      (text.dropWhile Char.isAlpha) := by
  obtain ⟨before, after, whole, startIs, stopIs⟩ := stands
  have split : text.takeWhile Char.isAlpha ++ text.dropWhile Char.isAlpha = text :=
    List.takeWhile_append_dropWhile
  have counts := congrArg Text.bytes split
  rw [Text.bytes_append] at counts
  refine ⟨before ++ text.takeWhile Char.isAlpha, after, ?_, ?_, ?_⟩
  · rw [List.append_assoc, ← List.append_assoc (text.takeWhile Char.isAlpha), split, whole]
  · rw [Text.bytes_append, startIs]
  · omega

/-- A keyword is split off in the source as from the text at the span. -/
theorem cutKeyword_eq (stands : source.Stands start stop text) :
    cutKeyword source ⟨start, stop⟩ =
      some ((splitKeyword start text).1, (splitKeyword start text).2.1) := by
  have found : cut source ⟨start, stop⟩ = some text := stands.slice?_eq
  have front : Text.splitAt? (Text.bytes (text.takeWhile Char.isAlpha)) text =
      some (text.takeWhile Char.isAlpha, text.dropWhile Char.isAlpha) :=
    Text.splitAt?_eq_some_iff.mpr ⟨List.takeWhile_append_dropWhile.symm, rfl⟩
  simp only [cutKeyword, found, front, trimSpan_eq (afterKeyword_stands stands), Option.bind_eq_bind,
    Option.bind_some, Option.pure_def, splitKeyword]

variable {braced : Braced}

/-- The whole construct stands at its span. -/
theorem braced_holds (found : cursor.braced? = some braced) :
    cursor.Holds braced.next braced.span (cursor.token.text ++ braced.inner ++ ['\x7d']) := by
  obtain ⟨closed, isSpan, -, stop⟩ := Cursor.braced?_eq_some found
  refine ⟨cursor.rest.takeWhile Text.isSeparator, [], ?_, ?_, ?_, ?_⟩
  · conv_lhs => rw [Cursor.rest_eq, Expression.closing?_eq_some closed]
    simp only [List.append_assoc, List.cons_append, List.nil_append]
  · rw [isSpan, Cursor.token_start]
  · rw [isSpan, stop, Cursor.offset_bump, Cursor.token_stop]
    simp only [Text.bytes_append, Nat.add_assoc]
    rfl
  · rw [isSpan]
    rfl

/-- A construct in braces can be cut out of the source, with its braces. -/
theorem cut_span (within : cursor.In source) (found : cursor.braced? = some braced) :
    cut source braced.span = some (cursor.token.text ++ braced.inner ++ ['\x7d']) :=
  (braced_holds found).cut within

/-- The text between braces stands between them. -/
theorem inner_stands (within : cursor.In source) (found : cursor.braced? = some braced) :
    source.Stands braced.innerStart (braced.innerStart + Text.bytes braced.inner) braced.inner := by
  obtain ⟨closed, -, innerIs, -⟩ := Cursor.braced?_eq_some found
  obtain ⟨before, whole, counted⟩ :=
    Cursor.In.exists_before (within.trans (Cursor.reaches_bump cursor))
  refine ⟨before, '\x7d' :: braced.next.rest, ?_, ?_, rfl⟩
  · rw [whole, Expression.closing?_eq_some closed]
  · rw [innerIs, counted]

/-- The expression cut out at a span is the text there, trimmed. -/
theorem cutEmbedded_of_stands (stands : source.Stands start stop text) (span : Span) :
    cutEmbedded source (span, ⟨start, stop⟩) =
      some ⟨span, (trimmed start text).1, String.ofList (trimmed start text).2⟩ := by
  have code : cut source (trimmed start text).1 = _ := (trimmed_stands stands).slice?_eq
  simp only [cutEmbedded, trimSpan_eq stands, Option.bind_eq_bind, Option.bind_some, cutCode, code,
    Option.map_some]

/-- The expression in braces that is cut out is the one that was read. -/
theorem cutEmbedded_eq (within : cursor.In source) (found : cursor.braced? = some braced) :
    cutEmbedded source (Cursor.bracedSpans braced) = some braced.embedded :=
  cutEmbedded_of_stands (inner_stands within found) braced.span

/-- What is cut out behind the keyword in braces is what was read there. -/
theorem cutWithKeyword_eq (within : cursor.In source) (found : cursor.braced? = some braced) :
    cutWithKeyword source (Cursor.bracedSpans braced) = some braced.withKeyword := by
  have inner := inner_stands within found
  have code : cut source (splitKeyword braced.innerStart braced.inner).2.1 = _ :=
    (trimmed_stands (afterKeyword_stands inner)).slice?_eq
  simp only [cutWithKeyword, Cursor.bracedSpans, cutKeyword_eq inner, Option.bind_eq_bind,
    Option.bind_some, cutCode, code, Option.map_some, Option.pure_def]
  rfl

end ClassHoist.Markup
