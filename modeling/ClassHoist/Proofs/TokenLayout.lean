import ClassHoist.Proofs.FeedAgreement
import ClassHoist.Proofs.LongestTokens
import ClassHoist.Proofs.Shifted

/-! # Where tokens stand

The tokens of a source are read one behind the other (`Cursor.Lexes`), so they are in order and only
separators stand between them. No token reaches over a place between two that do not go together, so a
source can be cut there and its tokens are those of the two parts (`Cursor.tokens_append`). Places in
front of an opening bracket or brace are of this kind, and those around a closing brace, an equals sign
or a quote (`tokens_layout`).
-/

namespace ClassHoist

namespace Text

variable {text before : Text} {offset : Nat} {c d : Char}

/-- Each byte of a text belongs to one of its characters. -/
theorem exists_char_around (inside : offset < text.bytes) :
    ∃ before c after, text = before ++ c :: after ∧ bytes before ≤ offset ∧
      offset < bytes before + c.utf8Size := by
  induction text generalizing offset with
  | nil => cases inside
  | cons c rest ih =>
    by_cases here : offset < c.utf8Size
    · exact ⟨[], c, rest, rfl, Nat.zero_le _, by rwa [bytes_nil, Nat.zero_add]⟩
    · rw [bytes_cons] at inside
      obtain ⟨before, d, after, rfl, low, high⟩ := ih (show offset - c.utf8Size < _ by omega)
      refine ⟨c :: before, d, after, rfl, ?_, ?_⟩
      · rw [bytes_cons]
        omega
      · rw [bytes_cons]
        omega

/-- The byte of a short character belongs to that character. -/
theorem exists_of_byteAt? (short : d.toNat < 128) (found : byteAt? text offset = some d) :
    ∃ before after, text = before ++ d :: after ∧ bytes before = offset := by
  obtain ⟨before, c, after, whole, low, high⟩ := exists_char_around (lt_bytes_of_byteAt? found)
  obtain ⟨place, rfl⟩ := Nat.exists_eq_add_of_le low
  by_cases isShort : c.utf8Size = 1
  · obtain rfl : place = 0 := by omega
    have same := byteAt?_of_short whole isShort
    rw [Nat.add_zero] at found
    obtain rfl := Option.some.inj (same.symm.trans found)
    exact ⟨before, after, whole, rfl⟩
  · obtain ⟨byte, isByte, long⟩ := byteAt?_of_long whole isShort (Nat.lt_of_add_lt_add_left high)
    obtain rfl := Option.some.inj (isByte.symm.trans found)
    exact absurd long (Nat.not_le_of_lt short)

/-- A separator has one byte. -/
theorem utf8Size_of_isSeparator (separator : isSeparator c = true) : c.utf8Size = 1 := by
  simp only [isSeparator, Bool.or_eq_true, beq_iff_eq] at separator
  rcases separator with (((rfl | rfl) | rfl) | rfl) | rfl <;> rfl

/-- Each byte of a run of separators is a separator. -/
theorem isSeparator_of_byteAt? {blanks more : Text} (whole : text = before ++ (blanks ++ more))
    (blank : ∀ c ∈ blanks, isSeparator c = true) (low : bytes before ≤ offset)
    (high : offset < bytes before + bytes blanks) (found : byteAt? text offset = some c) :
    isSeparator c = true := by
  obtain ⟨place, rfl⟩ := Nat.exists_eq_add_of_le low
  obtain ⟨front, d, back, rfl, low', high'⟩ :=
    exists_char_around (Nat.lt_of_add_lt_add_left high)
  have separator := blank d (by simp)
  have short := utf8Size_of_isSeparator separator
  obtain rfl : place = bytes front := by omega
  have split : text = (before ++ front) ++ d :: (back ++ more) := by simp [whole]
  have same := byteAt?_of_short split short
  rw [bytes_append] at same
  obtain rfl := Option.some.inj (same.symm.trans found)
  exact separator

end Text

namespace Markup

variable {source front back : Text} {cursor : Cursor} {found : List Token}

/-- The token stands in the source where it says, and it is the one that is taken there. -/
def Token.StandsIn (token : Token) (source : Text) : Prop :=
  ∃ before after, source = before ++ (token.text ++ after) ∧
    token.span = ⟨before.bytes, before.bytes + token.text.bytes⟩ ∧
      token.kind.IsTaken token.text after

/-- A token that stands in a source is not empty. -/
theorem Token.StandsIn.start_lt_stop {token : Token} (stands : token.StandsIn source) :
    token.span.start < token.span.stop := by
  obtain ⟨before, after, -, isSpan, taken⟩ := stands
  rw [isSpan]
  exact Nat.lt_add_of_pos_right (Text.bytes_pos taken.ne_nil)

namespace Cursor

/-- The tokens that are read from a place to the end. -/
inductive Lexes : Cursor → List Token → Prop where
  | last {cursor : Cursor} (ended : cursor.token.kind = .endOfFile) : Lexes cursor [cursor.token]
  | next {cursor : Cursor} {found : List Token} (more : cursor.token.kind ≠ .endOfFile)
      (later : Lexes cursor.bump found) : Lexes cursor (cursor.token :: found)

/-- The tokens of a place are read one behind the other. -/
theorem lexes (cursor : Cursor) : cursor.Lexes cursor.tokens := by
  induction counted : cursor.rest.length using Nat.strong_induction_on generalizing cursor with
  | _ count ih =>
    by_cases ended : cursor.token.kind = .endOfFile
    · rw [tokens_of_ended ended]
      exact .last ended
    · rw [tokens_of_more ended]
      exact .next ended (ih _ (counted ▸ bump_lt ended) cursor.bump rfl)

/-- What follows a place starts with the next token. -/
theorem begins (cursor : Cursor) : Begins cursor.token.kind
    (cursor.rest.takeWhile Text.isSeparator) cursor.token.text cursor.bump.rest := by
  obtain ⟨kind, blanks, text, rest, split, begins⟩ := exists_begins cursor.rest
  obtain ⟨offset, input⟩ := cursor
  obtain rfl : input = _ := split
  rw [begins.token, begins.bump, takeWhile_blanks begins.blank begins.head?_append]
  exact begins

/-- At the end of the file, no text and no rest are left. -/
theorem rest_of_ended (ended : cursor.token.kind = .endOfFile) :
    cursor.token.text = [] ∧ cursor.bump.rest = [] := by
  have read := cursor.begins.read
  rw [ended] at read
  cases left : cursor.token.text ++ cursor.bump.rest with
  | nil => exact List.append_eq_nil_iff.mp left
  | cons c tail =>
    rw [left] at read
    exact absurd (congrArg Prod.fst read) (lexeme_kind_ne_endOfFile c tail)

/-- A token at a place of a source stands in the source. -/
theorem standsIn (within : cursor.In source) (more : cursor.token.kind ≠ .endOfFile) :
    cursor.token.StandsIn source := by
  obtain ⟨before, whole, counted⟩ := within.exists_before
  refine ⟨before ++ cursor.rest.takeWhile Text.isSeparator, cursor.bump.rest, ?_, ?_,
    cursor.begins.isTaken more⟩
  · rw [List.append_assoc, ← cursor.rest_eq, whole]
  · rw [Text.bytes_append, ← counted, ← token_start, ← token_stop]

namespace Lexes

/-- Behind the last token there is nothing, and only there is an empty one. -/
theorem ends (lexes : cursor.Lexes found) (within : cursor.In source) :
    ∃ lead, found = lead ++ [⟨.endOfFile, .empty source.bytes, []⟩] ∧
      ∀ token ∈ lead, token.kind ≠ .endOfFile ∧ token.StandsIn source := by
  induction lexes with
  | @last cursor ended =>
    obtain ⟨isEmpty, isEnd⟩ := rest_of_ended ended
    have inside : cursor.bump.In source := within.trans (reaches_bump cursor)
    have place : cursor.bump.offset = source.bytes := by
      rw [← inside.toEnd_offset, toEnd, past, isEnd]
      rfl
    have stop := cursor.token_stop
    rw [isEmpty, Text.bytes_nil, Nat.add_zero] at stop
    rw [offset_bump] at place
    refine ⟨[], ?_, by simp⟩
    have parts : cursor.token = ⟨cursor.token.kind,
      ⟨cursor.token.span.start, cursor.token.span.stop⟩, cursor.token.text⟩ := rfl
    rw [parts, ended, isEmpty, ← stop, place]
    rfl
  | @next cursor found more _ ih =>
    obtain ⟨lead, rfl, stands⟩ := ih (within.trans (reaches_bump cursor))
    refine ⟨cursor.token :: lead, rfl, ?_⟩
    intro token mem
    rcases List.mem_cons.mp mem with rfl | mem
    · exact ⟨more, standsIn within more⟩
    · exact stands token mem

/-- Tokens are in order. -/
theorem ordered (lexes : cursor.Lexes found) :
    found.Pairwise (fun first second => first.span.start < second.span.start ∧
        first.span.stop ≤ second.span.start) ∧
      ∀ token ∈ found, cursor.offset ≤ token.span.start := by
  induction lexes with
  | last => exact ⟨List.pairwise_singleton _ _, by simp [token_start]⟩
  | @next cursor found more _ ih =>
    obtain ⟨later, behind⟩ := ih
    have taken := (cursor.begins.isTaken more).ne_nil
    have positive := Text.bytes_pos taken
    have stop := cursor.token_stop
    refine ⟨List.pairwise_cons.mpr ⟨fun token mem => ?_, later⟩, fun token mem => ?_⟩
    · have low := behind token mem
      rw [offset_bump] at low
      omega
    · rcases List.mem_cons.mp mem with rfl | mem
      · rw [token_start]
        exact Nat.le_add_right _ _
      · have low := behind token mem
        rw [offset_bump] at low
        have start := cursor.token_start
        omega

/-- Bytes outside tokens are separators. -/
theorem isSeparator_of_outside (lexes : cursor.Lexes found) (within : cursor.In source) {offset : Nat}
    {c : Char} (low : cursor.offset ≤ offset) (isByte : Text.byteAt? source offset = some c)
    (outside : ∀ token ∈ found, token.span.contains offset = false) : Text.isSeparator c = true := by
  have blank (cursor : Cursor) : ∀ c ∈ cursor.rest.takeWhile Text.isSeparator,
      Text.isSeparator c = true := List.all_eq_true.mp List.all_takeWhile
  induction lexes with
  | @last cursor ended =>
    obtain ⟨before, whole, counted⟩ := within.exists_before
    obtain ⟨isEmpty, isEnd⟩ := rest_of_ended ended
    rw [cursor.rest_eq, isEmpty, isEnd] at whole
    refine Text.isSeparator_of_byteAt? whole (blank cursor) (counted ▸ low) ?_ isByte
    have inside := Text.lt_bytes_of_byteAt? isByte
    rw [whole] at inside
    simpa using inside
  | @next cursor found more _ ih =>
    obtain ⟨notHere, later⟩ := List.forall_mem_cons.mp outside
    by_cases behind : cursor.bump.offset ≤ offset
    · exact ih (within.trans (reaches_bump cursor)) behind later
    · obtain ⟨before, whole, counted⟩ := within.exists_before
      rw [cursor.rest_eq] at whole
      refine Text.isSeparator_of_byteAt? whole (blank cursor) (counted ▸ low) ?_ isByte
      rw [offset_bump] at behind
      simp only [Span.contains, Bool.and_eq_false_iff, decide_eq_false_iff_not] at notHere
      rw [← counted, ← token_start]
      omega

/-- Further on, the same tokens are read further on. -/
theorem shift (length : Nat) (lexes : cursor.Lexes found) :
    (cursor.shift length).Lexes (found.map (Token.shift length)) := by
  induction lexes with
  | @last cursor ended =>
    rw [List.map_singleton, ← token_shift]
    exact .last (by rwa [token_shift])
  | @next cursor found more _ ih =>
    rw [List.map_cons, ← token_shift]
    exact .next (by rwa [token_shift]) (by rwa [bump_shift])

/-- What is read one behind the other is what the lexer gives out. -/
theorem tokens_eq (lexes : cursor.Lexes found) : cursor.tokens = found := by
  induction lexes with
  | last ended => exact tokens_of_ended ended
  | next more _ ih => rw [tokens_of_more more, ih]

end Lexes

/-- Further on, the lexer gives out the same tokens further on. -/
theorem tokens_shift (length : Nat) (cursor : Cursor) :
    (cursor.shift length).tokens = cursor.tokens.map (Token.shift length) :=
  (cursor.lexes.shift length).tokens_eq

/-- The lexer gives out one token at least, the end of the file. -/
theorem tokens_ne_nil (cursor : Cursor) : cursor.tokens ≠ [] := by
  intro none
  have first := head?_tokens cursor
  rw [none] at first
  cases first

/-- **Tokens of two parts.** In front of a seam a text has the tokens that it has alone, and behind it
those of the text there. -/
theorem tokens_append (offset : Nat) (seam : Seam front back) :
    Cursor.tokens ⟨offset, front ++ back⟩ =
      (Cursor.tokens ⟨offset, front⟩).dropLast ++
        Cursor.tokens ⟨offset + Text.bytes front, back⟩ := by
  induction counted : front.length using Nat.strong_induction_on generalizing offset front with
  | _ count ih =>
    rcases seam.cases with blank | ⟨kind, blanks, text, later, rfl, nonempty, named, begins, seam'⟩
    · -- Nothing but separators: in front of the seam there is only the end of the file.
      have ended : (Cursor.token ⟨offset, front⟩).kind = .endOfFile := by
        simp only [token, firstToken, List.dropWhile_eq_nil_iff.mpr blank, lexeme_nil]
      rw [← tokens_past_separators rfl blank, tokens_of_ended ended]
      rfl
    · have shorter : later.length < count := by
        have positive := List.length_pos_iff.mpr nonempty
        rw [← counted, List.length_append, List.length_append]
        omega
      have offsets : offset + Text.bytes (blanks ++ (text ++ later)) =
          offset + Text.bytes blanks + Text.bytes text + Text.bytes later := by
        rw [Text.bytes_append, Text.bytes_append]
        omega
      rw [offsets, List.append_assoc, List.append_assoc, tokens_of_begins begins named,
        tokens_of_begins (begins.cut named) named,
        List.dropLast_cons_of_ne_nil (tokens_ne_nil _), List.cons_append,
        ih later.length shorter _ seam' rfl]

/-- Behind a seam a token starts at once, unless there is a separator. -/
theorem mem_tokens_start {c : Char} (seam : Seam front (c :: back))
    (solid : Text.isSeparator c = false) :
    ⟨(lexeme (c :: back)).1, ⟨Text.bytes front, Text.bytes front + (lexeme (c :: back)).2.1.bytes⟩,
      (lexeme (c :: back)).2.1⟩ ∈ (start (front ++ c :: back)).tokens := by
  have begins : Begins _ [] _ _ := .of_solid solid back
  have behind := tokens_of_begins begins (lexeme_kind_ne_endOfFile c back) (Text.bytes front)
  rw [List.nil_append, lexeme_append] at behind
  rw [start, tokens_append 0 seam, Nat.zero_add, behind]
  exact List.mem_append_right _ List.mem_cons_self

end Cursor

/-- A character that no token holds beside another. -/
theorem Seam.of_single {d : Char} (single : d = '\x7d' ∨ d = '=' ∨ d = '"' ∨ d = '\'')
    (front back : Text) : Seam front (d :: back) := by
  intro c _ d' isHead
  obtain rfl := Option.some.inj isHead
  rcases single with rfl | rfl | rfl | rfl <;> simp [joins, isWordChar]

/-- Such a character is read by itself. -/
theorem exists_symbol_of_single {c : Char} (single : c = '\x7d' ∨ c = '=' ∨ c = '"' ∨ c = '\'') :
    ∃ kind : TokenKind, kind.symbol? = some [c] ∧
      ∀ rest, lexeme (c :: rest) = (kind, [c], rest) := by
  rcases single with rfl | rfl | rfl | rfl
  · exact ⟨.braceClose, rfl, fun _ => rfl⟩
  · exact ⟨.equals, rfl, fun _ => rfl⟩
  · exact ⟨.doubleQuote, rfl, fun _ => rfl⟩
  · exact ⟨.singleQuote, rfl, fun _ => rfl⟩

/-- **Where the tokens of a source stand.** The last token is the end of the file, empty and at the
end of the source; each other one is the longest that stands at its place, and not empty. Tokens are
in order and apart, and all bytes between them are separators. Each opening bracket and each opening
brace starts a token, and each closing brace, equals sign and quote is one by itself. So the tokens
of a source are those of the text in front of an opening bracket or brace, without their end of the
file, and those of the text from there on, further on by the length of the first. -/
theorem tokens_layout (source : Text) :
    (∃ lead, tokens source = lead ++ [⟨.endOfFile, .empty source.bytes, []⟩] ∧
      ∀ token ∈ lead, token.kind ≠ .endOfFile ∧ token.span.start < token.span.stop ∧
        token.StandsIn source) ∧
    (tokens source).Pairwise (fun first second => first.span.start < second.span.start ∧
      first.span.stop ≤ second.span.start) ∧
    (∀ offset c, Text.byteAt? source offset = some c →
      (∀ token ∈ tokens source, token.span.contains offset = false) →
        c ∈ ['\t', '\r', '\n', '\x0c', ' ']) ∧
    (∀ offset c, Text.byteAt? source offset = some c → c = '<' ∨ c = '\x7b' →
      ∃ token ∈ tokens source, token.kind ≠ .endOfFile ∧ token.span.start = offset) ∧
    (∀ offset c, Text.byteAt? source offset = some c →
      c = '\x7d' ∨ c = '=' ∨ c = '"' ∨ c = '\'' →
        ∃ kind : TokenKind, kind.symbol? = some [c] ∧
          ⟨kind, ⟨offset, offset + 1⟩, [c]⟩ ∈ tokens source) ∧
    ∀ front back, source = front ++ back → back.head? = some '<' ∨ back.head? = some '\x7b' →
      tokens source = (tokens front).dropLast ++ (tokens back).map (Token.shift front.bytes) := by
  have lexes : (Cursor.start source).Lexes (tokens source) := Cursor.lexes _
  have within : (Cursor.start source).In source := Cursor.Reaches.refl _
  refine ⟨?_, lexes.ordered.1, ?_, ?_, ?_, ?_⟩
  -- All tokens but the last one stand in the source.
  · obtain ⟨lead, whole, stands⟩ := lexes.ends within
    refine ⟨lead, whole, fun token mem => ?_⟩
    obtain ⟨goesOn, there⟩ := stands token mem
    exact ⟨goesOn, there.start_lt_stop, there⟩
  -- Between tokens there are only separators.
  · intro offset c isByte outside
    have separator := lexes.isSeparator_of_outside within (Nat.zero_le _) isByte outside
    simp only [Text.isSeparator, Bool.or_eq_true, beq_iff_eq] at separator
    rcases separator with (((rfl | rfl) | rfl) | rfl) | rfl <;> decide
  -- No token reaches over the start of a construct, so one begins there.
  · intro offset c isByte opening
    have short : c.toNat < 128 := by rcases opening with rfl | rfl <;> decide
    have solid : Text.isSeparator c = false := by rcases opening with rfl | rfl <;> rfl
    obtain ⟨before, after, rfl, rfl⟩ := Text.exists_of_byteAt? short isByte
    exact ⟨_, Cursor.mem_tokens_start (.of_opening opening before after) solid,
      lexeme_kind_ne_endOfFile c after, rfl⟩
  -- Nothing is joined to these characters on either side.
  · intro offset c isByte single
    have short : c.toNat < 128 := by rcases single with rfl | rfl | rfl | rfl <;> decide
    have solid : Text.isSeparator c = false := by
      rcases single with rfl | rfl | rfl | rfl <;> rfl
    have one : Text.bytes [c] = 1 := by rcases single with rfl | rfl | rfl | rfl <;> rfl
    obtain ⟨before, after, rfl, rfl⟩ := Text.exists_of_byteAt? short isByte
    obtain ⟨kind, isSymbol, read⟩ := exists_symbol_of_single single
    have there := Cursor.mem_tokens_start (.of_single single before after) solid
    rw [read, one] at there
    exact ⟨kind, isSymbol, there⟩
  -- In front of a construct no token is torn.
  · rintro front back rfl opening
    have seam : Seam front back := by
      cases back with
      | nil => exact .of_nil front
      | cons d back =>
        refine .of_opening ?_ front back
        exact opening.imp Option.some.inj Option.some.inj
    have parts := Cursor.tokens_append 0 seam
    have moved := Cursor.tokens_shift front.bytes (.start back)
    rw [Nat.zero_add] at parts
    exact parts.trans (congrArg _ moved)

end Markup

end ClassHoist
