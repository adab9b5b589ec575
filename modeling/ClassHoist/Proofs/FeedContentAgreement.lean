import ClassHoist.Markup.FeedContent
import ClassHoist.Proofs.Contents
import ClassHoist.Proofs.FeedTagAgreement

/-! # Contents of elements read from a feed

A feed at a place of the source reads the content that is not markup, the closing tag and the whole of
a script or style as the cursor does (`Cursor.textContent_feed`, `Cursor.rawElement_feed`).
-/

namespace ClassHoist.Markup

variable {source : Text} {cursor : Cursor}

/-- Searching for a closing tag first and for a brace in front of it then leads to the first of
both. -/
theorem spanUntil_stopsText (name : String) (text : Text) :
    let front := Text.spanUntil (Text.startsWith (closingLead name)) text
    Text.spanUntil (stopsText name) text =
      (front.1.takeWhile (· != '\x7b'), front.1.dropWhile (· != '\x7b') ++ front.2) := by
  induction text with
  | nil => rfl
  | cons c text ih =>
    simp only at ih ⊢
    rw [Text.spanUntil, Text.spanUntil]
    by_cases closes : Text.startsWith (closingLead name) (c :: text) = true
    · have stops : stopsText name (c :: text) = true := Bool.or_eq_true_iff.mpr (.inr closes)
      rw [if_pos closes, if_pos stops]
      rfl
    · rw [if_neg closes]
      by_cases brace : c = '\x7b'
      · subst brace
        have stops : stopsText name ('\x7b' :: text) = true := Bool.or_eq_true_iff.mpr (.inl rfl)
        rw [if_pos stops, List.takeWhile_cons_of_neg (by decide),
          List.dropWhile_cons_of_neg (by decide), List.cons_append, Text.spanUntil_append]
      · have goesOn : ¬ stopsText name (c :: text) = true := by
          rw [stopsText, Bool.or_eq_true_iff]
          rintro (stops | stops)
          · obtain ⟨rest, same⟩ := eq_append_of_startsWith stops
            exact brace (List.cons.inj same).1
          · exact closes stops
        have passes : (c != '\x7b') = true := bne_iff_ne.mpr brace
        rw [if_neg goesOn, ih, List.takeWhile_cons_of_pos (p := (· != '\x7b')) passes,
          List.dropWhile_cons_of_pos (p := (· != '\x7b')) passes]

namespace Cursor

/-- Behind a bracket, a name that is found is the next token. -/
theorem kind_of_tagName? {name : String} (named : cursor.tagName? = some name) :
    cursor.bump.token.kind = .name := by
  simp only [tagName?] at named
  split at named
  case isTrue both => exact both.1
  case isFalse => cases named

/-- A feed reads a closing tag as the cursor does. -/
theorem closingTag_feed (within : cursor.In source) (name : String) :
    cursor.feed.closingTag source name = some (closingTag cursor name).intake := by
  unfold Feed.closingTag closingTag
  rw [token_feed]
  by_cases opens : cursor.token.kind = .closingOpen
  · have more : cursor.token.kind ≠ .endOfFile := by rw [opens]; decide
    simp only [if_pos opens, tagName?_feed within more, Option.bind_eq_bind, Option.bind_some,
      Option.pure_def]
    by_cases own : cursor.tagName? = some name
    · have more' : cursor.bump.token.kind ≠ .endOfFile := by
        rw [kind_of_tagName? own]
        decide
      rw [if_pos own, if_pos own, bump_feed source more, bump_feed source more',
        expect_feed source _ (by decide)]
    · rw [if_neg own, if_neg own]
      rfl
  · simp only [if_neg opens]
    rfl

/-- A feed finds the content in front of a closing tag that the cursor finds. -/
theorem beforeClosing_feed (within : cursor.In source) (name : String) :
    cursor.feed.beforeClosing source name =
      some ((rawContent cursor name).1, (rawContent cursor name).2.1) := by
  have split := Text.spanUntil_append (Text.startsWith (closingLead name)) cursor.rest
  have front : cut source (rawContent cursor name).1 = some (rawContent cursor name).2.1 :=
    (within.stands split.symm).slice?_eq
  simp only [Feed.beforeClosing, offset_feed, within.cutFrom, Option.bind_eq_bind, Option.bind_some,
    Option.pure_def]
  exact congrArg (Option.bind · fun content => some (_, content)) front

/-- The tokens in content go that ends with the source or before a closing tag. -/
theorem sync_content {content tail : Text} {name : String} (split : cursor.rest = content ++ tail)
    (ends : tail = [] ∨ Text.startsWith (closingLead name) tail = true) :
    cursor.feed.sync (cursor.offset + content.bytes) = (cursor.past content tail).feed := by
  rcases ends with rfl | closes
  · exact sync_feed split (.of_nil _)
  · obtain ⟨more, rfl⟩ := eq_append_of_startsWith closes
    exact sync_feed split (.of_opening (.inl rfl) _ _)

/-- A feed takes the content of a raw element as the cursor does. -/
theorem rawContent_feed (within : cursor.In source) (name : String) :
    cursor.feed.rawContent source name = some ((rawContent cursor name).1,
      (rawContent cursor name).2.1, (rawContent cursor name).2.2.feed) := by
  have split := Text.spanUntil_append (Text.startsWith (closingLead name)) cursor.rest
  obtain ⟨-, ends⟩ := quiet_spanUntil (Text.startsWith (closingLead name)) cursor.rest
  simp only [Feed.rawContent, beforeClosing_feed within, Option.bind_eq_bind, Option.bind_some,
    Option.pure_def]
  exact congrArg (fun feed => some (_, _, feed)) (sync_content split.symm ends)

/-- A run of text can be cut out of the source. -/
theorem cutRun_eq (within : cursor.In source) {front back : Text}
    (split : cursor.rest = front ++ back) :
    cutRun source ⟨cursor.offset, cursor.offset + front.bytes⟩ = some (cursor.run front back) := by
  have found : cut source ⟨cursor.offset, cursor.offset + front.bytes⟩ = some front :=
    (within.stands split).slice?_eq
  simp only [cutRun, found, Option.bind_eq_bind, Option.bind_some, Option.pure_def]
  rfl

variable {inside inner after : Text}

/-- Behind an opening brace, the code in the braces is looked for. -/
theorem findClosing_brace (within : cursor.In source) (brace : cursor.rest = '\x7b' :: inside) :
    Expression.findClosing source '\x7d' 0 (cursor.offset + 1) =
      some ((Expression.closing? '\x7d' inside).map fun cut =>
        cursor.offset + 1 + Text.bytes cut.1) := by
  obtain ⟨before, whole, counted⟩ := within.exists_before
  have place : cursor.offset + 1 = Text.bytes (before ++ ['\x7b']) := by
    rw [counted, Text.bytes_append]
    rfl
  rw [place]
  apply Expression.findClosing_eq
  rw [whole, brace, List.append_cons]

/-- The code in braces stands in the source behind the brace. -/
theorem stands_brace (within : cursor.In source) (brace : cursor.rest = '\x7b' :: inside)
    (closed : Expression.closing? '\x7d' inside = some (inner, after)) :
    source.Stands (cursor.offset + 1) (cursor.offset + 1 + inner.bytes) inner := by
  obtain ⟨before, whole, counted⟩ := within.exists_before
  refine ⟨before ++ ['\x7b'], '\x7d' :: after, ?_, ?_, rfl⟩
  · rw [whole, brace, List.append_cons, Expression.closing?_eq_some closed]
  · rw [counted, Text.bytes_append]
    rfl

/-- The place behind code in braces. -/
theorem past_brace (brace : cursor.rest = '\x7b' :: inside)
    (closed : Expression.closing? '\x7d' inside = some (inner, after)) :
    cursor.rest = '\x7b' :: inner ++ ['\x7d'] ++ after ∧
      cursor.past ('\x7b' :: inner ++ ['\x7d']) after =
        ⟨cursor.offset + 1 + inner.bytes + 1, after⟩ := by
  have one : Char.utf8Size '\x7b' = 1 := rfl
  have last : Char.utf8Size '\x7d' = 1 := rfl
  constructor
  · rw [brace, Expression.closing?_eq_some closed, List.append_assoc]
    rfl
  · simp only [past, Text.bytes_append, Text.bytes_cons, Text.bytes_nil, one, last, Nat.add_zero,
      List.cons_append, Nat.add_assoc]

/-- A feed goes on behind the closing brace. -/
theorem sync_brace (brace : cursor.rest = '\x7b' :: inside)
    (closed : Expression.closing? '\x7d' inside = some (inner, after)) :
    cursor.feed.sync (cursor.offset + 1 + inner.bytes + 1) =
      (⟨cursor.offset + 1 + inner.bytes + 1, after⟩ : Cursor).feed := by
  obtain ⟨split, next⟩ := past_brace brace closed
  rw [← next, ← sync_feed split (.of_closing (.inr (.inl rfl)) _ _)]
  exact congrArg cursor.feed.sync (congrArg offset next).symm

/-- **Text and expressions are read from the feed** as far as they go. -/
theorem textContent_feed (within : cursor.In source) (name : String) :
    cursor.feed.textContent source name = some (textContent name cursor).intake := by
  induction counted : cursor.rest.length using Nat.strong_induction_on generalizing cursor with
  | _ count ih =>
    have stops : (fun text => Text.startsWith ['\x7b'] text ||
        Text.startsWith (closingLead name) text) = stopsText name := rfl
    have split := Text.spanUntil_append (stopsText name) cursor.rest
    have same := spanUntil_stopsText name cursor.rest
    obtain ⟨-, ends⟩ := quiet_spanUntil (Text.startsWith (closingLead name)) cursor.rest
    rw [Feed.textContent, textContent_eq, stops]
    simp only [beforeClosing_feed within, rawContent, Option.bind_eq_bind, Option.bind_some,
      Option.pure_def, offset_feed]
    simp only at same
    rw [same] at split ⊢
    generalize (Text.spanUntil (Text.startsWith (closingLead name)) cursor.rest).1 = content at split
    generalize (Text.spanUntil (Text.startsWith (closingLead name)) cursor.rest).2 = tail
      at split ends
    have joined : content.takeWhile (· != '\x7b') ++ content.dropWhile (· != '\x7b') = content :=
      List.takeWhile_append_dropWhile
    simp only at split
    rw [cutRun_eq within split.symm]
    simp only [Option.bind_some]
    -- The content holds a brace or not: what comes first is an expression or the closing tag.
    cases left : content.dropWhile (· != '\x7b') with
    | nil =>
      have plain : content.all (· != '\x7b') = true :=
        List.all_eq_true.mpr (List.dropWhile_eq_nil_iff.mp left)
      rw [left] at split
      simp only [plain, ↓reduceIte, List.nil_append]
      rw [sync_content split.symm ends]
      rcases ends with rfl | closes
      · rfl
      · obtain ⟨rest, rfl⟩ := eq_append_of_startsWith closes
        rfl
    | cons c more =>
      obtain rfl : c = '\x7b' := by
        have stops := head?_dropWhile content c (by rw [left]; rfl)
        exact bne_eq_false_iff_eq.mp stops
      have notPlain : content.all (· != '\x7b') = false := by
        rw [List.all_eq_false]
        refine ⟨'\x7b', ?_, by decide⟩
        rw [← joined, left]
        exact List.mem_append_right _ List.mem_cons_self
      rw [left, List.cons_append] at split
      generalize content.takeWhile (· != '\x7b') = front at split
      simp only [notPlain, Bool.false_eq_true, ↓reduceIte, List.cons_append]
      simp only [sync_feed split.symm (.of_opening (.inr rfl) _ _)]
      have inside : (cursor.past front ('\x7b' :: (more ++ tail))).In source :=
        within.trans (reaches_past split.symm)
      have starts : (cursor.past front ('\x7b' :: (more ++ tail))).offset =
          cursor.offset + Text.bytes front := rfl
      have brace : (cursor.past front ('\x7b' :: (more ++ tail))).rest =
          '\x7b' :: (more ++ tail) := rfl
      have passed : cursor.offset ≤ (cursor.past front ('\x7b' :: (more ++ tail))).offset :=
        Nat.le_add_right _ _
      have upTo : (cursor.past front ('\x7b' :: (more ++ tail))).rest.length ≤ count := by
        rw [← counted, ← split, List.length_append]
        exact Nat.le_add_left _ _
      rw [← starts]
      generalize cursor.past front ('\x7b' :: (more ++ tail)) = place at inside brace passed upTo
      rw [findClosing_brace inside brace]
      cases closed : Expression.closing? '\x7d' (more ++ tail) with
      | none =>
        simp only [Option.map_none, Option.bind_some, toEnd_feed inside]
        rfl
      | some parts =>
        obtain ⟨inner, after⟩ := parts
        obtain ⟨split', next⟩ := past_brace brace closed
        have behind : place.Reaches ⟨place.offset + 1 + Text.bytes inner + 1, after⟩ :=
          next ▸ reaches_past split'
        have shorter : after.length < count := by
          have less := Expression.length_closing?_lt closed
          rw [brace, List.length_cons] at upTo
          omega
        have farther : cursor.offset < place.offset + 1 + Text.bytes inner + 1 := by omega
        have fewer : Feed.left source (Cursor.mk (place.offset + 1 + Text.bytes inner + 1) after).feed <
            cursor.feed.left source := left_lt (inside.trans behind) farther farther
        simp only [Option.map_some, Option.bind_some, sync_brace brace closed,
          cutEmbedded_of_stands (stands_brace inside brace closed), fewer, ↓reduceIte,
          ih after.length shorter (inside.trans behind) rfl]
        rfl

/-- A feed reads a script or style as the cursor does. -/
theorem rawElement_feed (within : cursor.In source) (more : cursor.token.kind ≠ .endOfFile) :
    cursor.feed.rawElement source = some (rawElement cursor).intake := by
  have inside : (openTag cursor).next.In source := within.trans (openTag_reaches cursor)
  unfold Feed.rawElement rawElement
  simp only [openTag_feed within more, Reading.intake, Option.bind_eq_bind, Option.bind_some,
    Option.pure_def]
  cases (openTag cursor).value with
  | none => rfl
  | some tag =>
    simp only [offset_feed]
    split
    case isTrue => rfl
    case isFalse =>
      have place : (rawContent (openTag cursor).next tag.name).2.2.In source :=
        inside.trans (rawContent_reaches _ _)
      simp only [rawContent_feed inside, Option.bind_some, closingTag_feed place]
      rfl

end Cursor

end ClassHoist.Markup
