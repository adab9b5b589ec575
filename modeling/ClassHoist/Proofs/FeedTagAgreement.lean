import ClassHoist.Markup.FeedTag
import ClassHoist.Proofs.FeedAgreement
import ClassHoist.Proofs.Shifted
import ClassHoist.Proofs.Tiling
import ClassHoist.Proofs.Unquoted

/-! # Opening tags read from a feed

A feed at a place of the source reads the opening tag that the cursor reads. Behind a value without
quotes a feed can be late: where the value ends with an opening bracket or brace, the slash of the end
of the tag belongs to the last token of the value, so that token goes and the offset stays in front of
the slash (`Feed.Trails`). Only the bracket that ends the tag can follow, and behind that the feed is in
step again (`openTag_feed`).
-/

namespace ClassHoist.Markup

variable {source before rest run after : Text} {quote : Char} {cursor : Cursor}

/-- The signs that end a value without quotes are short characters. -/
theorem toNat_lt_of_not_unquoted {c : Char} (ends : isUnquotedChar c = false) : c.toNat < 128 := by
  simp only [isUnquotedChar, Text.isSeparator, Bool.and_eq_false_iff, Bool.not_eq_false',
    Bool.or_eq_true, beq_iff_eq, bne_eq_false_iff_eq] at ends
  rcases ends with ((((rfl | rfl) | rfl) | rfl) | rfl) | rfl <;> decide

/-- The end of a value without quotes is found by its bytes. -/
theorem scanUnquoted_eq (whole : source = before ++ rest) :
    scanUnquoted source before.bytes = some (before.bytes + (unquotedRun rest).1.bytes) := by
  induction rest generalizing before with
  | nil =>
    rw [scanUnquoted, Text.byteAt?_eq_none (by rw [whole, List.append_nil])]
    rfl
  | cons c rest ih =>
    have whole' : source = (before ++ [c]) ++ rest := by rw [whole, List.append_cons]
    have counts : Text.bytes (before ++ [c]) = before.bytes + c.utf8Size := Text.bytes_append _ _
    have passes : ∀ offset byte, Text.byteAt? source offset = some byte → 128 ≤ byte.toNat →
        scanUnquoted source offset = scanUnquoted source (offset + 1) := by
      intro offset byte found long
      have noSlash : byte ≠ '/' := Text.ne_of_long long (by decide)
      have goesOn : isUnquotedChar byte ≠ false := fun ends =>
        absurd long (Nat.not_le_of_lt (toNat_lt_of_not_unquoted ends))
      rw [scanUnquoted, found]
      simp only [goesOn, noSlash, Bool.true_eq_false, false_and, or_self, ↓reduceIte]
    have follows (short : c.utf8Size = 1) : Text.byteAt? source (before.bytes + 1) = some '>' ↔
        rest.head? = some '>' := by
      rw [← short, ← counts]
      exact Text.byteAt?_eq_some_iff whole' (by decide)
    rw [unquotedRun_cons]
    by_cases stops : isUnquotedChar c = false ∨ (c = '/' ∧ rest.head? = some '>')
    · have small : c.toNat < 128 := by
        rcases stops with ends | ⟨rfl, -⟩
        · exact toNat_lt_of_not_unquoted ends
        · decide
      have short : c.utf8Size = 1 := Char.utf8Size_eq_one_iff.mpr
        (UInt32.le_iff_toNat_le.mpr (Nat.le_of_lt_succ small))
      rw [if_pos stops, scanUnquoted, Text.byteAt?_of_short whole short]
      simp only [follows short, stops, ↓reduceIte]
      rfl
    · rw [if_neg stops, Text.scan_over passes whole, ← counts, ih whole', counts, Nat.add_assoc]
      · rfl
      · intro here
        have notHere : ¬ (isUnquotedChar c = false ∨
            (c = '/' ∧ Text.byteAt? source (before.bytes + 1) = some '>')) := by
          rintro (ends | ⟨rfl, next⟩)
          · exact stops (.inl ends)
          · exact stops (.inr ⟨rfl, (follows rfl).mp next⟩)
        rw [scanUnquoted, here]
        simp only [notHere, ↓reduceIte]

/-- Literal text in a quoted value is passed byte by byte. -/
theorem scanQuoted_literal (isQuote : quote = '"' ∨ quote = '\'') (front : Nat)
    (whole : source = before ++ rest) :
    scanQuoted source quote front before.bytes = scanQuoted source quote front
      (before.bytes + Text.bytes (rest.takeWhile (isLiteralChar quote))) := by
  induction rest generalizing before with
  | nil => rfl
  | cons c rest ih =>
    by_cases literal : isLiteralChar quote c = true
    · have whole' : source = (before ++ [c]) ++ rest := by rw [whole, List.append_cons]
      have counts : Text.bytes (before ++ [c]) = before.bytes + c.utf8Size := Text.bytes_append _ _
      have passes : ∀ offset byte, Text.byteAt? source offset = some byte → 128 ≤ byte.toNat →
          scanQuoted source quote front offset = scanQuoted source quote front (offset + 1) := by
        intro offset byte found long
        have noBrace : byte ≠ '\x7b' := Text.ne_of_long long (by decide)
        have noQuote : byte ≠ quote := by
          rcases isQuote with rfl | rfl <;> exact Text.ne_of_long long (by decide)
        rw [scanQuoted, found]
        simp only [noBrace, noQuote, ↓reduceIte]
      rw [List.takeWhile_cons_of_pos literal, Text.scan_over passes whole, ← counts, ih whole', counts,
        Text.bytes_cons, Nat.add_assoc]
      intro here
      simp only [isLiteralChar, Bool.and_eq_true, bne_iff_ne, ne_eq] at literal
      rw [scanQuoted, here]
      simp only [literal, ↓reduceIte]
    · rw [List.takeWhile_cons_of_neg literal]
      rfl

/-- Behind literal text, code in braces is looked for and passed as a whole. -/
theorem scanQuoted_brace (notBrace : '\x7b' ≠ quote) {literal tail : Text}
    (whole : source = (before ++ literal) ++ '\x7b' :: tail) :
    scanQuoted source quote before.bytes (before ++ literal).bytes =
      match Expression.closing? '\x7d' tail with
      | none => some (.error (.token .braceClose))
      | some (inner, _) =>
        let stop := (before ++ literal).bytes
        let behind := stop + 1 + inner.bytes + 1
        (scanQuoted source quote behind behind).map fun others => others.map fun read =>
          (literalPart before.bytes literal ++ .expression ⟨⟨stop, behind⟩,
            ⟨stop + 1, stop + 1 + inner.bytes⟩, String.ofList inner⟩ :: read.1, read.2) := by
  have counts : Text.bytes (before ++ literal) = before.bytes + Text.bytes literal :=
    Text.bytes_append _ _
  have found : cut source ⟨before.bytes, Text.bytes (before ++ literal)⟩ = some literal := by
    apply Text.Stands.slice?_eq
    exact ⟨before, '\x7b' :: tail, by rw [whole, List.append_assoc], rfl, counts⟩
  have inside : source = (before ++ literal ++ ['\x7b']) ++ tail := by
    rw [whole, List.append_cons]
  have starts : Text.bytes (before ++ literal ++ ['\x7b']) = Text.bytes (before ++ literal) + 1 :=
    Text.bytes_append _ _
  rw [scanQuoted, Text.byteAt?_of_short whole rfl, ← starts, Expression.findClosing_eq inside, starts]
  simp only [notBrace, ↓reduceIte, found, Option.bind_eq_bind, Option.bind_some, Option.pure_def]
  cases closed : Expression.closing? '\x7d' tail with
  | none => rfl
  | some parts =>
    obtain ⟨inner, behind⟩ := parts
    have code : cut source ⟨Text.bytes (before ++ literal) + 1,
        Text.bytes (before ++ literal) + 1 + inner.bytes⟩ = some inner := by
      apply Text.Stands.slice?_eq
      exact ⟨_, '\x7d' :: behind, by rw [inside, Expression.closing?_eq_some closed], starts, rfl⟩
    have farther : Text.bytes (before ++ literal) <
        Text.bytes (before ++ literal) + 1 + inner.bytes := by omega
    simp only [Option.map_some, cutCode, code, farther, ↓reduceIte, Option.bind_some]
    exact Option.map_eq_bind.symm

/-- A quoted value is found by its bytes. -/
theorem scanQuoted_eq (isQuote : quote = '"' ∨ quote = '\'') (whole : source = before ++ rest) :
    scanQuoted source quote before.bytes before.bytes =
      some ((quotedParts quote before.bytes rest).map fun read => (read.1, read.2.offset - 1)) := by
  have size : quote.utf8Size = 1 := by rcases isQuote with rfl | rfl <;> rfl
  have notBrace : '\x7b' ≠ quote := by rcases isQuote with rfl | rfl <;> decide
  induction counted : rest.length using Nat.strong_induction_on generalizing before rest with
  | _ count ih =>
    have split : rest.takeWhile (isLiteralChar quote) ++ rest.dropWhile (isLiteralChar quote) = rest :=
      List.takeWhile_append_dropWhile
    rw [scanQuoted_literal isQuote _ whole, quotedParts_eq]
    generalize rest.takeWhile (isLiteralChar quote) = literal at split
    have counts : Text.bytes (before ++ literal) = before.bytes + Text.bytes literal :=
      Text.bytes_append _ _
    have found (tail : Text) (same : rest = literal ++ tail) :
        cut source ⟨before.bytes, before.bytes + Text.bytes literal⟩ = some literal := by
      apply Text.Stands.slice?_eq
      exact ⟨before, tail, by rw [whole, same], rfl, rfl⟩
    -- Behind the literal text stands the quote, a brace or nothing.
    cases left : rest.dropWhile (isLiteralChar quote) with
    | nil =>
      rw [left, List.append_nil] at split
      rw [← counts, scanQuoted, Text.byteAt?_eq_none (by rw [whole, split])]
      rfl
    | cons c tail =>
      rw [left] at split
      have whole' : source = (before ++ literal) ++ c :: tail := by
        rw [whole, ← split, List.append_assoc]
      by_cases closes : c = quote
      · subst closes
        rw [scanQuoted, ← counts, Text.byteAt?_of_short whole' size]
        simp only [↓reduceIte, counts, found _ split.symm, Option.bind_eq_bind, Option.bind_some,
          Option.pure_def, Except.map, size, Nat.add_sub_cancel]
      · obtain rfl := eq_brace_of_dropWhile left closes
        rw [← counts, scanQuoted_brace notBrace whole', counts]
        simp only [closes, ↓reduceIte]
        cases closed : Expression.closing? '\x7d' tail with
        | none => rfl
        | some parts =>
          obtain ⟨inner, behind⟩ := parts
          have stop : Text.bytes (before ++ literal ++ ['\x7b'] ++ inner ++ ['\x7d']) =
              before.bytes + Text.bytes literal + 1 + inner.bytes + 1 := by
            rw [Text.bytes_append, Text.bytes_append, Text.bytes_append, counts]
            rfl
          have later := ih behind.length
            (by rw [← counted]; exact length_afterExpression_lt left closed)
            (show source = (before ++ literal ++ ['\x7b'] ++ inner ++ ['\x7d']) ++ behind by
              rw [whole', Expression.closing?_eq_some closed]
              simp only [List.append_assoc, List.cons_append, List.nil_append]) rfl
          rw [stop] at later
          simp only [later]
          cases quotedParts quote (before.bytes + Text.bytes literal + 1 + inner.bytes + 1) behind <;>
            rfl

/-- A text in quotes ends with the quote. -/
theorem Quoted.exists_concat {text : Text} (quoted : Quoted quote text) :
    ∃ front, text = front ++ [quote] := by
  induction quoted with
  | @close literal plain => exact ⟨literal, rfl⟩
  | @expression literal inner more plain closed others ih =>
    obtain ⟨front, rfl⟩ := ih
    exact ⟨literal ++ '\x7b' :: (inner ++ '\x7d' :: front), by simp⟩

namespace Cursor

/-- The quote that is the first token. -/
theorem text_of_quote (quoted : cursor.token.kind = .doubleQuote ∨ cursor.token.kind = .singleQuote) :
    ∃ quote, (quote = '"' ∨ quote = '\'') ∧ cursor.token.text = [quote] := by
  rcases quoted with isQuote | isQuote
  · exact ⟨_, .inl rfl, lexeme_symbol rfl (congrArg TokenKind.symbol? isQuote)⟩
  · exact ⟨_, .inr rfl, lexeme_symbol rfl (congrArg TokenKind.symbol? isQuote)⟩

/-- The end is reached from behind a token as from before it. -/
theorem toEnd_bump (within : cursor.In source) : cursor.bump.toEnd = cursor.toEnd := by
  have inside : cursor.bump.In source := within.trans (reaches_bump cursor)
  have same : cursor.bump.toEnd.offset = cursor.toEnd.offset := by
    rw [inside.toEnd_offset, within.toEnd_offset]
  exact congrArg (Cursor.mk · []) same

/-- At the end of the source, the end of the file is there. -/
theorem span_toEnd (cursor : Cursor) : cursor.toEnd.token.span = Span.empty cursor.toEnd.offset := rfl

/-- A feed reads a quoted value as the cursor does. -/
theorem quotedValue_feed (within : cursor.In source)
    (quoted : cursor.token.kind = .doubleQuote ∨ cursor.token.kind = .singleQuote) :
    cursor.feed.quotedValue source = some (quotedValue cursor).intake := by
  have more : cursor.token.kind ≠ .endOfFile := by
    rcases quoted with isQuote | isQuote <;> rw [isQuote] <;> decide
  obtain ⟨quote, isQuote, isText⟩ := text_of_quote quoted
  obtain ⟨before, whole, counted⟩ := In.exists_before (within.trans (reaches_bump cursor))
  have inside : cursor.bump.In source := within.trans (reaches_bump cursor)
  have size : quote.utf8Size = 1 := by rcases isQuote with rfl | rfl <;> rfl
  have opens : Text.byteAt? source cursor.token.span.start = some quote := by
    obtain ⟨front, whole', counted'⟩ := within.exists_before
    rw [rest_eq, isText, ← List.append_assoc] at whole'
    have place : cursor.token.span.start =
        Text.bytes (front ++ cursor.rest.takeWhile Text.isSeparator) := by
      rw [token_start, counted', Text.bytes_append]
    rw [place]
    exact Text.byteAt?_of_short whole' size
  have stop : cursor.token.span.stop = before.bytes := (offset_bump cursor).symm.trans counted
  unfold Feed.quotedValue quotedValue
  simp only [token_feed, opens, isText, List.headD_cons, stop, counted, bump_feed source more,
    scanQuoted_eq isQuote whole, Option.bind_eq_bind, Option.bind_some, Option.pure_def]
  cases done : quotedParts quote before.bytes cursor.bump.rest with
  | error missing =>
    simp only [Except.map, toEnd_feed inside, toEnd_bump within, token_feed, span_toEnd]
    rfl
  | ok read =>
    obtain ⟨parts, next⟩ := read
    obtain ⟨taken, isQuoted, split⟩ := quotedParts_quoted done
    obtain ⟨front, rfl⟩ := isQuoted.exists_concat
    have place : next.offset = before.bytes + Text.bytes (front ++ [quote]) := by
      obtain ⟨taken, split', counts⟩ := quotedParts_reaches done
      rw [split] at split'
      rw [counts, List.append_cancel_right split']
    have positive : next.offset - 1 + 1 = cursor.bump.offset + Text.bytes (front ++ [quote]) := by
      rw [place, counted, Text.bytes_append, Text.bytes_cons, size]
      rfl
    have closing : quote = '>' ∨ quote = '\x7d' ∨ quote = '"' ∨ quote = '\'' :=
      .inr (.inr isQuote)
    simp only [Except.map, positive, sync_feed split (.of_closing closing front next.rest)]
    simp only [past, counted, ← place]
    rfl

end Cursor

/-- The feed has the tokens that follow the cursor, and all text before the cursor has been read up
to a sign that belongs to the bracket that ends a tag. -/
def Feed.Trails (feed : Feed) (cursor : Cursor) : Prop :=
  feed.tokens = cursor.tokens ∧
    (feed.offset = cursor.offset ∨ cursor.token.kind = .tagEnd ∧ feed.offset ≤ cursor.offset)

namespace Cursor

/-- The feed of a place is not late. -/
theorem feed_trails (cursor : Cursor) : cursor.feed.Trails cursor := ⟨rfl, .inl rfl⟩

/-- A feed that is late is so only in front of the bracket that ends a tag. -/
theorem eq_feed_of_trails {feed : Feed} (trails : feed.Trails cursor)
    (other : cursor.token.kind ≠ .tagEnd) : feed = cursor.feed := by
  obtain ⟨tokens, offset | ⟨ends, -⟩⟩ := trails
  · exact congrArg₂ Feed.mk tokens offset
  · exact absurd ends other

end Cursor

/-- Late or not, the same token is next. -/
theorem token_of_trails {feed : Feed} (trails : feed.Trails cursor) :
    feed.token source = cursor.token := by
  rw [← Cursor.token_feed source cursor, Feed.token, Feed.token, trails.1]
  rfl

/-- Behind the bracket that ends the tag, the feed is in step. -/
theorem bump_of_trails {feed : Feed} (trails : feed.Trails cursor)
    (more : cursor.token.kind ≠ .endOfFile) : feed.bump source = cursor.bump.feed := by
  have upTo : feed.offset ≤ cursor.offset := by
    obtain ⟨-, same | ⟨-, less⟩⟩ := trails
    · exact Nat.le_of_eq same
    · exact less
  have passed : cursor.offset ≤ cursor.token.span.stop := (Cursor.reaches_bump cursor).offset_le
  rw [← Cursor.bump_feed source more, Feed.bump, Feed.bump, token_of_trails trails,
    Cursor.token_feed, trails.1, Cursor.offset_feed, Nat.max_eq_right passed,
    Nat.max_eq_right (Nat.le_trans upTo passed)]
  rfl

/-- White space is joined to nothing. -/
theorem joins_separator {c d : Char} (separator : Text.isSeparator d = true) :
    joins c d = false ∧ joins d c = false := by
  simp only [Text.isSeparator, Bool.or_eq_true, beq_iff_eq] at separator
  rcases separator with (((rfl | rfl) | rfl) | rfl) | rfl <;>
    simp [joins, isWordChar, Text.isBlank]

/-- A closing bracket is joined to nothing but a slash before it. -/
theorem joins_closing (c : Char) : joins c '>' = (c == '/') := by
  simp [joins, isWordChar]

/-- A slash is joined to nothing but an opening bracket or brace before it. -/
theorem joins_slash (c : Char) : joins c '/' = (c == '<' || c == '\x7b') := by
  simp [joins, isWordChar]

/-- A value without quotes ends at a seam, unless its last character takes in a slash. -/
theorem seam_unquoted (read : unquotedRun (run ++ after) = (run, after))
    (apart : ¬ (OpensToken run ∧ after.head? = some '/')) {blanks : Text}
    (blank : ∀ c ∈ blanks, Text.isSeparator c = true) : Seam (blanks ++ run) after := by
  obtain ⟨-, noClose, stops⟩ := unquotedRun_eq_iff.mp read
  intro c isLast d isHead
  have last : Text.isSeparator c = true ∨ run.getLast? = some c := by
    cases run with
    | nil =>
      rw [List.append_nil] at isLast
      exact .inl (blank c (List.mem_of_getLast? isLast))
    | cons e run =>
      rw [List.getLast?_append_of_ne_nil _ (List.cons_ne_nil e run)] at isLast
      exact .inr isLast
  rcases last with separator | isLast
  · exact (joins_separator separator).2
  rcases stops with rfl | ⟨e, isHead', ends⟩ | ⟨more, rfl⟩
  · cases isHead
  · obtain rfl := Option.some.inj (isHead.symm.trans isHead')
    simp only [isUnquotedChar, Bool.and_eq_false_iff, Bool.not_eq_false',
      bne_eq_false_iff_eq] at ends
    rcases ends with separator | rfl
    · exact (joins_separator separator).1
    · rw [joins_closing, beq_eq_false_iff_ne]
      rintro rfl
      exact noClose ⟨isLast, isHead⟩
  · obtain rfl := Option.some.inj isHead
    rw [joins_slash, Bool.or_eq_false_iff, beq_eq_false_iff_ne, beq_eq_false_iff_ne]
    constructor
    · rintro rfl
      exact apart ⟨.inl isLast, rfl⟩
    · rintro rfl
      exact apart ⟨.inr isLast, rfl⟩

/-- A slash behind a run that ends with an opening bracket or brace belongs to the run. -/
theorem afterUnquoted_of_opens (opens : OpensToken run) (rest : Text) (stop : Nat) :
    afterUnquoted run ('/' :: rest) stop = ⟨stop + 1, rest⟩ := by
  rcases opens with last | last <;> simp only [afterUnquoted, last]

/-- Any other run ends where it ends. -/
theorem afterUnquoted_of_apart (apart : ¬ (OpensToken run ∧ after.head? = some '/')) (stop : Nat) :
    afterUnquoted run after stop = ⟨stop, after⟩ := by
  unfold afterUnquoted
  split
  case h_1 last => exact absurd ⟨.inl last, rfl⟩ apart
  case h_2 last => exact absurd ⟨.inr last, rfl⟩ apart
  case h_3 => rfl

/-- An opening bracket or brace takes in the slash behind it. -/
theorem begins_slash {c : Char} (opening : c = '<' ∨ c = '\x7b') (rest : Text) :
    ∃ kind, kind ≠ .endOfFile ∧ Begins kind [] [c, '/'] rest := by
  rcases opening with rfl | rfl
  · exact ⟨.closingOpen, by decide, nofun, fun _ isHead => Option.some.inj isHead ▸ rfl, rfl⟩
  · exact ⟨.blockEnd, by decide, nofun, fun _ isHead => Option.some.inj isHead ▸ rfl, rfl⟩

/-- A closing bracket alone is the end of a tag. -/
theorem begins_closing (rest : Text) : Begins .tagEnd [] ['>'] rest :=
  ⟨nofun, fun _ isHead => Option.some.inj isHead ▸ rfl, rfl⟩

namespace Cursor

/-- Dropping fewer characters first makes no difference. -/
theorem dropWhile_dropWhile {α : Type} {first second : α → Bool}
    (implies : ∀ a, first a = true → second a = true) (list : List α) :
    (list.dropWhile first).dropWhile second = list.dropWhile second := by
  induction list with
  | nil => rfl
  | cons a list ih =>
    cases here : first a with
    | false => rw [List.dropWhile_cons_of_neg (by rw [here]; exact Bool.false_ne_true)]
    | true => rw [List.dropWhile_cons_of_pos here, ih, List.dropWhile_cons_of_pos (implies a here)]

/-- Behind a token that takes in the slash of the end of the tag, the tokens that are left are those
of the bracket and what follows it. -/
theorem tokens_late {front more : Text} {c : Char} (opening : c = '<' ∨ c = '\x7b')
    (split : cursor.rest = front ++ c :: '/' :: '>' :: more) :
    (cursor.feed.sync (cursor.offset + Text.bytes front + 1)).tokens =
      tokens ⟨cursor.offset + Text.bytes front + 2, '>' :: more⟩ := by
  obtain ⟨kind, named, begins⟩ := begins_slash opening ('>' :: more)
  have offset : max cursor.offset (cursor.offset + Text.bytes front + 1) =
      cursor.offset + Text.bytes front + 1 := Nat.max_eq_right (by omega)
  have before := dropWhile_tokens
    (fun token => token.span.start < cursor.offset + Text.bytes front && token.kind != .endOfFile)
    split (.of_opening opening front _)
    (fun _ more early => by simp only [early, bne_iff_ne.mpr more, decide_true, Bool.and_self])
    (fun _ late => by simp only [Nat.not_lt_of_le late, decide_false, Bool.false_and])
  simp only [Feed.sync, feed, offset]
  rw [← dropWhile_dropWhile _ cursor.tokens, before]
  · have size : Text.bytes [c, '/'] = 2 := by rcases opening with rfl | rfl <;> rfl
    -- The first token left is the one with the slash, and it starts too early.
    have first : (cursor.past front (c :: '/' :: '>' :: more)).token =
        ⟨kind, ⟨cursor.offset + Text.bytes front, cursor.offset + Text.bytes front + 2⟩, [c, '/']⟩ := by
      rw [← size]
      exact begins.token _
    have next : (cursor.past front (c :: '/' :: '>' :: more)).bump =
        ⟨cursor.offset + Text.bytes front + 2, '>' :: more⟩ := by
      rw [← size]
      exact begins.bump _
    have closing : (⟨cursor.offset + Text.bytes front + 2, '>' :: more⟩ : Cursor).token.span.start =
        cursor.offset + Text.bytes front + 2 :=
      congrArg (·.span.start) ((begins_closing more).token _)
    rw [tokens_of_more (by rw [first]; exact named), first, next, List.dropWhile_cons_of_pos]
    · obtain ⟨rest, isCons⟩ := List.head?_eq_some_iff.mp
        (head?_tokens ⟨cursor.offset + Text.bytes front + 2, '>' :: more⟩)
      rw [isCons, List.dropWhile_cons_of_neg]
      simp only [closing, Nat.not_lt_of_le (Nat.le_succ _), decide_false, Bool.false_and,
        Bool.false_eq_true, not_false_eq_true]
    · simp only [Nat.lt_succ_self, decide_true, Bool.true_and, bne_iff_ne, ne_eq, named,
        not_false_eq_true]
  · intro token early
    simp only [Bool.and_eq_true, decide_eq_true_eq] at early ⊢
    exact ⟨Nat.lt_succ_of_lt early.1, early.2⟩

/-- A feed is in step behind a value without quotes, or late by the slash of the end of the tag. -/
theorem sync_unquoted (cursor : Cursor)
    (same : unquotedRun (cursor.rest.dropWhile Text.isSeparator) = (run, after)) :
    (cursor.feed.sync (cursor.token.span.start + Text.bytes run)).Trails
      (afterUnquoted run after (cursor.token.span.start + Text.bytes run)) ∧
    (cursor.feed.sync (cursor.token.span.start + Text.bytes run)).offset =
      cursor.token.span.start + Text.bytes run := by
  have whole := rest_eq_unquotedRun cursor
  rw [same] at whole
  have read : unquotedRun (run ++ after) = (run, after) := by
    have joined := unquotedRun_append (cursor.rest.dropWhile Text.isSeparator)
    rw [same] at joined
    rw [joined, same]
  have blank : ∀ c ∈ cursor.rest.takeWhile Text.isSeparator, Text.isSeparator c = true :=
    List.all_eq_true.mp List.all_takeWhile
  have stop : cursor.token.span.start + Text.bytes run =
      cursor.offset + Text.bytes (cursor.rest.takeWhile Text.isSeparator ++ run) := by
    rw [token_start, Text.bytes_append, Nat.add_assoc]
  refine ⟨?_, ?_⟩
  -- Where the run ends with an opening bracket or brace, the slash is in its last token.
  · by_cases apart : OpensToken run ∧ after.head? = some '/'
    · obtain ⟨opens, isHead⟩ := apart
      obtain ⟨more, rfl⟩ : ∃ more, after = '/' :: '>' :: more := by
        obtain ⟨-, -, rfl | ⟨c, isHead', ends⟩ | slash⟩ := unquotedRun_eq_iff.mp read
        · cases isHead
        · obtain rfl := Option.some.inj (isHead.symm.trans isHead')
          cases ends
        · exact slash
      obtain ⟨c, front, isRun, opening⟩ : ∃ c front, run = front ++ [c] ∧ (c = '<' ∨ c = '\x7b') := by
        rcases opens with last | last
        · obtain ⟨front, isRun⟩ := List.getLast?_eq_some_iff.mp last
          exact ⟨_, front, isRun, .inl rfl⟩
        · obtain ⟨front, isRun⟩ := List.getLast?_eq_some_iff.mp last
          exact ⟨_, front, isRun, .inr rfl⟩
      have size : Text.bytes [c] = 1 := by rcases opening with rfl | rfl <;> rfl
      have place : cursor.token.span.start + Text.bytes run = cursor.offset +
          Text.bytes (cursor.rest.takeWhile Text.isSeparator ++ front) + 1 := by
        rw [stop, isRun, ← List.append_assoc, Text.bytes_append _ [c], size, Nat.add_assoc]
      rw [afterUnquoted_of_opens opens, place]
      refine ⟨tokens_late opening ?_, .inr ⟨?_, ?_⟩⟩
      · conv_lhs => rw [whole, isRun]
        simp only [List.append_assoc, List.cons_append, List.nil_append]
      · exact congrArg Token.kind ((begins_closing more).token _)
      · exact Nat.max_le.mpr ⟨by simp only [offset_feed]; omega, Nat.le_succ _⟩
    · rw [afterUnquoted_of_apart apart, stop,
        sync_feed (by rw [List.append_assoc]; exact whole) (seam_unquoted read apart blank)]
      exact feed_trails _
  · rw [stop]
    exact Nat.max_eq_right (Nat.le_add_right _ _)

end Cursor

/-- What was read from a feed is the reading, and the feed behind it is in step or late, as far as an
offset or farther. -/
def Reading.Fed {Content : Type} (reading : Reading Content) (front : Nat)
    (found : Option (Intake Content)) : Prop :=
  ∃ feed : Feed, found = some ⟨reading.value, reading.faults, feed⟩ ∧
    feed.Trails reading.next ∧ front ≤ feed.offset

/-- A reading that ends no earlier is fed by its own intake. -/
theorem Reading.fed_intake {Content : Type} (reading : Reading Content) {front : Nat}
    (upTo : front ≤ reading.next.offset) : reading.Fed front (some reading.intake) :=
  ⟨reading.next.feed, rfl, Cursor.feed_trails _, upTo⟩

/-- What is made of a construct in braces. -/
def Cursor.bracedContent {Content : Type} (cursor : Cursor)
    (content : Braced → Option Content × List Fault) : Reading (Option Content) :=
  match cursor.braced? with
  | none => ⟨none, [cursor.unclosedBrace], cursor.toEnd⟩
  | some braced => ⟨(content braced).1, (content braced).2, braced.next⟩

namespace Cursor

/-- A feed reads what is made of a construct in braces as the cursor does. -/
theorem readBraced_feed {Content : Type} {use : Span × Span → Option (Option Content × List Fault)}
    {content : Braced → Option Content × List Fault} (within : cursor.In source)
    (same : ∀ braced, cursor.braced? = some braced →
      use (bracedSpans braced) = some (content braced)) :
    cursor.feed.readBraced source use = some (cursor.bracedContent content).intake := by
  unfold Feed.readBraced bracedContent
  simp only [braced_feed within, bracedReading, Option.bind_eq_bind, Option.bind_some]
  cases found : cursor.braced? with
  | none => rfl
  | some braced =>
    simp only [Option.map_some, same braced found, Option.bind_some]
    rfl

/-- An attribute in braces is what is made of the construct. -/
theorem bracedAttribute_eq (cursor : Cursor) :
    bracedAttribute cursor = cursor.bracedContent fun braced =>
      (some (.ofContent braced.span (trimmed braced.innerStart braced.inner).2), []) := by
  unfold bracedContent bracedAttribute
  cases cursor.braced? <;> rfl

/-- An attachment is what is made of the construct behind its keyword. -/
theorem attachAttribute_eq (cursor : Cursor) :
    attachAttribute cursor = cursor.bracedContent fun braced =>
      attachContent braced.withKeyword.1 braced.withKeyword.2 := by
  unfold bracedContent attachAttribute attachContent
  cases cursor.braced? with
  | none => rfl
  | some braced =>
    simp only
    split <;> rfl

/-- A feed reads an attribute in braces as the cursor does. -/
theorem bracedAttribute_feed (within : cursor.In source) :
    cursor.feed.bracedAttribute source = some (bracedAttribute cursor).intake := by
  rw [bracedAttribute_eq]
  apply readBraced_feed within
  intro braced found
  have inner := inner_stands within found
  have code : cut source (trimmed braced.innerStart braced.inner).1 = _ :=
    (trimmed_stands inner).slice?_eq
  simp only [bracedSpans, trimSpan_eq inner, Option.bind_eq_bind, Option.bind_some, code,
    Option.pure_def]

/-- A feed reads an attachment as the cursor does. -/
theorem attachAttribute_feed (within : cursor.In source) :
    cursor.feed.attachAttribute source = some (attachAttribute cursor).intake := by
  rw [attachAttribute_eq]
  apply readBraced_feed within
  intro braced found
  simp only [cutWithKeyword_eq within found, Option.bind_eq_bind, Option.bind_some, Option.pure_def]

/-- The expression alone that is a value. -/
def bracedValue (braced : Braced) : Value :=
  .expression ⟨braced.span, ⟨braced.innerStart, braced.innerStart + braced.inner.bytes⟩,
    String.ofList braced.inner⟩

/-- A feed reads an expression alone as the cursor does. -/
theorem expression_feed (within : cursor.In source) :
    cursor.feed.readBraced source (cutExpression source) =
      some (cursor.bracedContent fun braced => (some (bracedValue braced), [])).intake := by
  apply readBraced_feed within
  intro braced found
  have inner : cut source ⟨braced.innerStart, braced.innerStart + braced.inner.bytes⟩ = _ :=
    (inner_stands within found).slice?_eq
  simp only [cutExpression, bracedSpans, cutCode, inner, Option.map_some, bracedValue]

/-- A feed reads a value without quotes as the cursor does, and is late behind it at most. -/
theorem unquotedValue_feed (within : cursor.In source)
    (same : unquotedRun (cursor.rest.dropWhile Text.isSeparator) = (run, after)) :
    ∃ feed : Feed, cursor.feed.unquotedValue source =
        some ⟨some (.text ⟨⟨cursor.token.span.start, feed.offset⟩, String.ofList run⟩), [], feed⟩ ∧
      feed.Trails (afterUnquoted run after (cursor.token.span.start + Text.bytes run)) ∧
      feed.offset = cursor.token.span.start + Text.bytes run := by
  obtain ⟨before, whole, counted⟩ := within.exists_before
  have split := rest_eq_unquotedRun cursor
  rw [same] at split
  have place : cursor.token.span.start =
      Text.bytes (before ++ cursor.rest.takeWhile Text.isSeparator) := by
    rw [token_start, counted, Text.bytes_append]
  have found : scanUnquoted source cursor.token.span.start =
      some (cursor.token.span.start + Text.bytes run) := by
    have whole' : source = (before ++ cursor.rest.takeWhile Text.isSeparator) ++
        cursor.rest.dropWhile Text.isSeparator := by
      rw [List.append_assoc, List.takeWhile_append_dropWhile, whole]
    rw [place, scanUnquoted_eq whole', same]
  have raw : cut source ⟨cursor.token.span.start, cursor.token.span.start + Text.bytes run⟩ =
      some run := by
    apply Text.Stands.slice?_eq
    refine ⟨before ++ cursor.rest.takeWhile Text.isSeparator, after, ?_, place.symm, rfl⟩
    rw [List.append_assoc, ← split, whole]
  obtain ⟨trails, stop⟩ := sync_unquoted cursor same
  refine ⟨_, ?_, trails, stop⟩
  simp only [Feed.unquotedValue, token_feed, found, raw, Option.bind_eq_bind, Option.bind_some,
    Option.pure_def, stop]

/-- A feed reads an attribute with a name as the cursor does, and is late behind it at most. -/
theorem namedAttribute_feed (within : cursor.In source) (isRun : cursor.token.kind.IsRun) :
    (namedAttribute cursor).Fed cursor.bump.offset (cursor.feed.namedAttribute source) := by
  have more : cursor.token.kind ≠ .endOfFile := by
    rcases isRun with isRun | isRun <;> rw [isRun] <;> decide
  have behind : cursor.bump.In source := within.trans (reaches_bump cursor)
  have inside : cursor.bump.bump.In source := behind.trans (reaches_bump cursor.bump)
  have reach : cursor.bump.Reaches cursor.bump.bump := reaches_bump cursor.bump
  unfold Feed.namedAttribute namedAttribute
  simp only [token_feed, cut_token within, bump_feed source more, Option.bind_eq_bind,
    Option.bind_some, Option.pure_def]
  split
  case isFalse => exact Reading.fed_intake _ (Nat.le_refl _)
  case isTrue isEquals =>
    have more' : cursor.bump.token.kind ≠ .endOfFile := by rw [isEquals]; decide
    simp only [bump_feed source more']
    split
    case h_1 isQuote | h_2 isQuote =>
      have quoted := quotedValue_feed inside (by rw [isQuote]; decide)
      rw [Feed.value, token_feed, isQuote]
      simp only [quoted, Option.bind_some]
      exact Reading.fed_intake _ (reach.trans (quotedValue_reaches _)).offset_le
    case h_3 isBrace =>
      rw [Feed.value, token_feed, isBrace]
      simp only [expression_feed inside, bracedContent, Option.bind_some]
      cases found : cursor.bump.bump.braced? with
      | none => exact Reading.fed_intake _ (reach.trans (reaches_toEnd _)).offset_le
      | some braced => exact Reading.fed_intake _ (reach.trans (reaches_braced? found)).offset_le
    case h_4 isRun | h_5 isRun =>
      rw [Feed.value, token_feed, isRun]
      obtain ⟨feed, found, trails, stop⟩ := unquotedValue_feed inside rfl
      have upTo : cursor.bump.offset ≤ feed.offset := by
        have before := reach.offset_le
        rw [stop, token_start]
        omega
      simp only [found, Option.bind_some]
      exact ⟨feed, by simp only [stop, Option.map_some], trails, upTo⟩
    case h_6 noQuote noQuote' noBrace noName noWord =>
      rw [Feed.value, token_feed]
      split
      all_goals first | contradiction | exact Reading.fed_intake _ reach.offset_le

/-- What the kind of the first token makes of an attribute. -/
theorem attribute?_cases {reading : Reading (Option Attribute)}
    (read : attribute? cursor = some reading) :
    ((cursor.token.kind = .name ∨ cursor.token.kind = .word) ∧ reading = namedAttribute cursor) ∨
      (cursor.token.kind = .braceOpen ∧ reading = bracedAttribute cursor) ∨
        (cursor.token.kind = .specialOpen ∧ reading = attachAttribute cursor) ∨
          cursor.token.kind ∉
            [.tagEnd, .selfClose, .endOfFile, .name, .word, .braceOpen, .specialOpen] ∧
            reading = ⟨none, [⟨.unexpectedInTag cursor.token.kind, cursor.token.span⟩],
              cursor.bump⟩ := by
  unfold attribute? at read
  split at read
  case h_1 | h_2 | h_3 => cases read
  case h_4 isRun => exact .inl ⟨.inl isRun, (Option.some.inj read).symm⟩
  case h_5 isRun => exact .inl ⟨.inr isRun, (Option.some.inj read).symm⟩
  case h_6 isBrace => exact .inr (.inl ⟨isBrace, (Option.some.inj read).symm⟩)
  case h_7 isSpecial => exact .inr (.inr (.inl ⟨isSpecial, (Option.some.inj read).symm⟩))
  case h_8 noEnd noClose noFile noName noWord noBrace noSpecial =>
    refine .inr (.inr (.inr ⟨?_, (Option.some.inj read).symm⟩))
    simp only [List.mem_cons, List.not_mem_nil, or_false, not_or]
    exact ⟨noEnd, noClose, noFile, noName, noWord, noBrace, noSpecial⟩

/-- Only the end of a tag, or of the source, is no attribute. -/
theorem kind_of_attribute?_eq_none (ended : attribute? cursor = none) :
    cursor.token.kind = .tagEnd ∨ cursor.token.kind = .selfClose ∨
      cursor.token.kind = .endOfFile := by
  unfold attribute? at ended
  split at ended
  case h_1 isEnd => exact .inl isEnd
  case h_2 isEnd => exact .inr (.inl isEnd)
  case h_3 isEnd => exact .inr (.inr isEnd)
  all_goals cases ended

/-- The next attribute is read from the feed, where the tag goes on. It takes some of the source. -/
theorem attribute?_feed (within : cursor.In source) {reading : Reading (Option Attribute)}
    (read : attribute? cursor = some reading) :
    ∃ intake : Intake (Option Attribute), cursor.feed.attribute? source = some (some intake) ∧
      reading.Fed (cursor.offset + 1) (some intake) := by
  have further := offset_lt_of_lt (attribute?_reaches read) (attribute?_lt read)
  unfold Feed.attribute?
  rw [token_feed]
  rcases attribute?_cases read with ⟨isRun, rfl⟩ | ⟨isBrace, rfl⟩ | ⟨isSpecial, rfl⟩ | ⟨other, rfl⟩
  · obtain ⟨feed, found, trails, upTo⟩ := namedAttribute_feed within isRun
    have more : cursor.token.kind ≠ .endOfFile := by
      rcases isRun with isRun | isRun <;> rw [isRun] <;> decide
    have passed := offset_lt_of_lt (reaches_bump cursor) (bump_lt more)
    refine ⟨_, ?_, feed, rfl, trails, Nat.le_trans passed upTo⟩
    rcases isRun with isRun | isRun <;> rw [isRun, found] <;> rfl
  · rw [isBrace, bracedAttribute_feed within]
    exact ⟨_, rfl, Reading.fed_intake _ further⟩
  · rw [isSpecial, attachAttribute_feed within]
    exact ⟨_, rfl, Reading.fed_intake _ further⟩
  · have more : cursor.token.kind ≠ .endOfFile := fun ended => other (by rw [ended]; decide)
    rw [bump_feed source more]
    refine ⟨_, ?_, Reading.fed_intake _ further⟩
    generalize cursor.token.kind = kind at other
    cases kind <;> first | rfl | exact absurd (by decide) other

/-- No attribute is read from a feed where the tag ends. -/
theorem attribute?_feed_of_none {feed : Feed} (trails : feed.Trails cursor)
    (ended : attribute? cursor = none) : feed.attribute? source = some none := by
  unfold Feed.attribute?
  rw [token_of_trails trails]
  rcases kind_of_attribute?_eq_none ended with isEnd | isEnd | isEnd <;> rw [isEnd]

/-- A feed reads a list of attributes as the cursor does, and is late behind it at most. -/
theorem attributes_feed (within : cursor.In source) {feed : Feed} (trails : feed.Trails cursor) :
    (attributes cursor).Fed feed.offset (feed.attributes source) := by
  fun_induction attributes cursor generalizing feed with
  | case1 cursor none =>
    rw [Feed.attributes, attribute?_feed_of_none trails none]
    exact ⟨feed, rfl, trails, Nat.le_refl _⟩
  | case2 cursor reading found less more ih =>
    have goesOn : cursor.token.kind ≠ .tagEnd := by
      intro ends
      simp only [attribute?, ends] at found
      cases found
    have inside : reading.next.In source := within.trans (attribute?_reaches found)
    obtain rfl := eq_feed_of_trails trails goesOn
    obtain ⟨intake, fed, next, same, trails', upTo⟩ := attribute?_feed within found
    obtain rfl := Option.some.inj same
    obtain ⟨last, others, trails'', upTo'⟩ := ih inside trails'
    have fewer := left_lt inside (offset_lt_of_lt (attribute?_reaches found) less) upTo
    rw [Feed.attributes, fed]
    simp only [Option.bind_eq_bind, Option.bind_some, fewer, ↓reduceIte, others, Option.pure_def]
    exact ⟨last, rfl, trails'', Nat.le_trans (Nat.le_of_succ_le upTo) upTo'⟩

/-- **An opening tag is read from the feed**, and behind it the feed is in step. -/
theorem openTag_feed (within : cursor.In source) (more : cursor.token.kind ≠ .endOfFile) :
    cursor.feed.openTag source = some (openTag cursor).intake := by
  have inside : cursor.bump.In source := within.trans (reaches_bump cursor)
  unfold Feed.openTag openTag tagName?
  simp only [token_feed, bump_feed source more, cut_token inside, Option.bind_eq_bind,
    Option.bind_some, Option.pure_def]
  by_cases named : cursor.bump.token.kind = .name ∧
      cursor.bump.token.span.start = cursor.token.span.stop
  · have more' : cursor.bump.token.kind ≠ .endOfFile := by rw [named.1]; decide
    obtain ⟨feed, found, trails, -⟩ := attributes_feed
      (inside.trans (reaches_bump cursor.bump)) (feed_trails cursor.bump.bump)
    simp only [named, and_self, ↓reduceIte, bump_feed source more', found, Option.bind_some,
      token_of_trails trails]
    split
    case isTrue closes =>
      rw [bump_of_trails trails (by rw [closes]; decide)]
      rfl
    case isFalse =>
      unfold Feed.expect expect Feed.missing missing
      simp only [token_of_trails trails]
      split
      case isTrue ends =>
        rw [bump_of_trails trails (by rw [ends]; decide)]
        rfl
      case isFalse other =>
        rw [eq_feed_of_trails trails other]
        rfl
  · simp only [named, ↓reduceIte]
    rfl

end Cursor

end ClassHoist.Markup
