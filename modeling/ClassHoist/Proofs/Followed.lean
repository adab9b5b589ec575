import ClassHoist.Proofs.Shifted
import ClassHoist.Proofs.TopLevel

/-! # Reading in front of more text

A construct that is read without faults ends before the text does, so it is read the same if the
text goes on (`Reading.followed`), as long as what follows starts with a tag or a brace: no token
reaches over the start of one (`Begins.followed`). What is searched for in opaque text is found where
it was, and a tag stands in front of its end.
-/

namespace ClassHoist.Markup

variable {more : Text} {kind : TokenKind} {blanks text rest : Text}

/-- What a text starts with is settled before a construct starts, unless it reaches over the
start. -/
theorem prefix_followed {lead : Text} (starts : StartsConstruct more)
    (plain : lead.all isTextChar = true) (leads : lead <+: rest ++ more) : lead <+: rest := by
  rcases List.prefix_or_prefix_of_prefix leads (List.prefix_append rest more) with short | long
  · exact short
  · obtain ⟨tail, rfl⟩ := long
    cases tail with
    | nil => simp only [List.append_nil, List.prefix_rfl]
    | cons c tail =>
      have isHead : c ∈ more.head? := by
        rw [List.prefix_append_right_inj] at leads
        obtain ⟨after, rfl⟩ := leads
        rfl
      have isText := List.all_eq_true.mp plain c (List.mem_append_right _ List.mem_cons_self)
      rw [starts c isHead] at isText
      cases isText

/-- An angle bracket opens a tag unless it begins a comment or a closing tag. -/
theorem lexeme_tagOpen_iff : lexeme ('<' :: rest) = (.tagOpen, ['<'], rest) ↔
    ¬ ['!', '-', '-'] <+: rest ∧ ¬ ['/'] <+: rest := by
  unfold lexeme
  split
  case h_3 noComment noClosing same =>
    obtain ⟨-, rfl⟩ := List.cons.inj same
    refine iff_of_true rfl ⟨?_, ?_⟩
    · rintro ⟨tail, rfl⟩
      exact noComment tail rfl
    · rintro ⟨tail, rfl⟩
      exact noClosing tail rfl
  all_goals simp_all

/-- A slash is a token of its own unless it begins the end of a tag. -/
theorem lexeme_slash_iff :
    lexeme ('/' :: rest) = (.slash, ['/'], rest) ↔ ¬ ['>'] <+: rest := by
  unfold lexeme
  split
  case h_6 noEnd same =>
    obtain ⟨-, rfl⟩ := List.cons.inj same
    refine iff_of_true rfl ?_
    rintro ⟨tail, rfl⟩
    exact noEnd tail rfl
  all_goals simp_all

/-- Only a blank starts no token. -/
theorem isBlank_of_invalid {c : Char} (invalid : (lexeme (c :: rest)).1 = .invalid) :
    Text.isBlank c = true := by
  unfold lexeme at invalid
  split at invalid
  case h_16 noTag noTagEnd _ noSlash noEquals noDouble noSingle _ _ _ _ noBrace noBraceEnd =>
    by_cases isRun : isWordChar c = true
    · unfold wordLexeme at invalid
      rw [List.takeWhile_cons_of_pos isRun] at invalid
      simp only at invalid
      split at invalid <;> cases invalid
    · by_contra notBlank
      rw [Bool.not_eq_true] at isRun notBlank
      simp only [isWordChar, notBlank, Bool.false_or, Bool.not_eq_false', Bool.or_eq_true,
        beq_iff_eq] at isRun
      rcases isRun with ((((((rfl | rfl) | rfl) | rfl) | rfl) | rfl) | rfl) | rfl
      · exact noTag _ rfl
      · exact noTagEnd _ rfl
      · exact noBrace _ rfl
      · exact noBraceEnd _ rfl
      · exact noEquals _ rfl
      · exact noDouble _ rfl
      · exact noSingle _ rfl
      · exact noSlash _ rfl
  all_goals cases invalid

/-- A white space is no token but an invalid character. -/
theorem lexeme_of_isBlank {c : Char} (blank : Text.isBlank c = true) :
    lexeme (c :: rest) = (.invalid, [c], rest) := by
  have noWord : isWordChar c = false := by
    simp only [isWordChar, blank, Bool.true_or, Bool.not_true]
  unfold lexeme
  split
  case h_16 =>
    unfold wordLexeme
    rw [List.takeWhile_cons_of_neg (by rw [noWord]; exact Bool.false_ne_true)]
  all_goals
    next same =>
      obtain ⟨rfl, -⟩ := List.cons.inj same
      cases blank

/-- What holds of the character that follows holds of it in front of a construct, if it holds of the
start of a construct. -/
theorem head?_followed {test : Char → Prop} (starts : StartsConstruct more)
    (ends : ∀ c, isTextChar c = false → test c) (stops : ∀ c ∈ rest.head?, test c) :
    ∀ c ∈ (rest ++ more).head?, test c := by
  cases rest with
  | nil => exact fun c isHead => ends c (starts c isHead)
  | cons d rest => exact stops

namespace Begins

/-- The first token is the same in front of a construct, except for the end of the file. -/
theorem followed (begins : Begins kind blanks text rest) (starts : StartsConstruct more)
    (goesOn : kind ≠ .endOfFile) : Begins kind blanks text (rest ++ more) := by
  have runs (isRun : kind.IsRun) : Begins kind blanks text (rest ++ more) := by
    obtain ⟨isWord, stops, isKind⟩ := begins.run isRun
    rw [isKind]
    refine begins_of_isWord begins.blank isWord (head?_followed starts ?_ stops)
    intro c noText
    rcases isTextChar_eq_false noText with rfl | rfl <;> rfl
  cases kind with
  | endOfFile => exact absurd rfl goesOn
  | tagOpen =>
    obtain rfl := begins.text_eq rfl
    obtain ⟨noComment, noClosing⟩ := lexeme_tagOpen_iff.mp begins.read
    refine ⟨begins.blank, begins.solid, lexeme_tagOpen_iff.mpr ⟨fun leads => ?_, fun leads => ?_⟩⟩
    · exact noComment (prefix_followed starts (by decide) leads)
    · exact noClosing (prefix_followed starts (by decide) leads)
  | slash =>
    obtain rfl := begins.text_eq rfl
    refine ⟨begins.blank, begins.solid, lexeme_slash_iff.mpr fun leads => ?_⟩
    exact lexeme_slash_iff.mp begins.read (prefix_followed starts (by decide) leads)
  | braceOpen =>
    obtain rfl := begins.text_eq rfl
    refine begins_braceOpen begins.blank (head?_followed starts ?_ begins.braceOpen_plain)
    intro c noText
    rcases isTextChar_eq_false noText with rfl | rfl <;> decide
  | name => exact runs (.inl rfl)
  | word => exact runs (.inr rfl)
  | invalid =>
    have read := begins.read
    have split := lexeme_append (text ++ rest)
    cases left : text ++ rest with
    | nil => rw [left] at read; cases read
    | cons c tail =>
      have blank := isBlank_of_invalid (congrArg Prod.fst (left ▸ read))
      rw [left, lexeme_of_isBlank blank] at read
      obtain ⟨-, same⟩ := Prod.mk.inj read
      obtain ⟨rfl, rfl⟩ := Prod.mk.inj same
      exact ⟨begins.blank, begins.solid, lexeme_of_isBlank blank⟩
  | _ => exact begins.replace rfl _

end Begins

/-- What is taken by a test is the same in front of a construct, if the construct starts with none
of it. -/
theorem span_followed (test : Char → Bool) (starts : StartsConstruct more)
    (ends : ∀ c, isTextChar c = false → test c = false) (text : Text) :
    (text ++ more).takeWhile test = text.takeWhile test ∧
      (text ++ more).dropWhile test = text.dropWhile test ++ more := by
  have taken : ∀ c ∈ text.takeWhile test, test c = true := List.all_eq_true.mp List.all_takeWhile
  have stops : ∀ c ∈ (text.dropWhile test ++ more).head?, test c = false :=
    head?_followed starts ends (head?_dropWhile text)
  have whole : text ++ more = text.takeWhile test ++ (text.dropWhile test ++ more) := by
    rw [← List.append_assoc, List.takeWhile_append_dropWhile]
  rw [whole]
  exact ⟨takeWhile_blanks taken stops, dropWhile_blanks taken stops⟩

/-- The place in a source that goes on with more text. -/
def Cursor.followed (cursor : Cursor) (more : Text) : Cursor := ⟨cursor.offset, cursor.rest ++ more⟩

/-- The construct in braces in a source that goes on with more text. -/
def Braced.followed (braced : Braced) (more : Text) : Braced :=
  { braced with next := braced.next.followed more }

/-- The same reading in a source that goes on with more text. -/
def Reading.followed {Content : Type} (reading : Reading Content) (more : Text) : Reading Content :=
  { reading with next := reading.next.followed more }

namespace Cursor

variable {cursor : Cursor}

/-- The next token begins in the rest as one of its kind, behind white space at most. -/
theorem exists_begins_cursor (cursor : Cursor) : ∃ blanks rest,
    cursor.rest = blanks ++ (cursor.token.text ++ rest) ∧
      Begins cursor.token.kind blanks cursor.token.text rest := by
  obtain ⟨kind, blanks, text, rest, split, begins⟩ := Markup.exists_begins cursor.rest
  have token := begins.token cursor.offset
  rw [← split] at token
  have kindIs : cursor.token.kind = kind := congrArg Token.kind token
  have textIs : cursor.token.text = text := congrArg Token.text token
  rw [kindIs, textIs]
  exact ⟨blanks, rest, split, begins⟩

/-- The first token, here and in a source that goes on. -/
theorem exists_place_followed (cursor : Cursor) (more : Text) : ∃ blanks rest,
    Begins cursor.token.kind blanks cursor.token.text rest ∧
      cursor = ⟨cursor.offset, blanks ++ (cursor.token.text ++ rest)⟩ ∧
        cursor.followed more =
          ⟨cursor.offset, blanks ++ (cursor.token.text ++ (rest ++ more))⟩ := by
  obtain ⟨blanks, rest, split, begins⟩ := exists_begins_cursor cursor
  refine ⟨blanks, rest, begins, by rw [← split], ?_⟩
  unfold followed
  rw [split, List.append_assoc, List.append_assoc]

/-- A token, and the place behind it, is the same in front of more text. -/
theorem token_bump_followed (starts : StartsConstruct more)
    (goesOn : cursor.token.kind ≠ .endOfFile) :
    (cursor.followed more).token = cursor.token ∧
      (cursor.followed more).bump = cursor.bump.followed more := by
  obtain ⟨blanks, rest, begins, place, place'⟩ := exists_place_followed cursor more
  have begins' := begins.followed starts goesOn
  have token := begins.token cursor.offset
  have bump := begins.bump cursor.offset
  rw [← place] at token bump
  rw [place', begins'.token, begins'.bump, ← token, bump]
  exact ⟨rfl, rfl⟩

/-- The next token is the same in front of more text. -/
theorem token_followed (starts : StartsConstruct more) (goesOn : cursor.token.kind ≠ .endOfFile) :
    (cursor.followed more).token = cursor.token := (token_bump_followed starts goesOn).1

/-- Stepping over a token is the same in front of more text. -/
theorem bump_followed (starts : StartsConstruct more) (goesOn : cursor.token.kind ≠ .endOfFile) :
    (cursor.followed more).bump = cursor.bump.followed more := (token_bump_followed starts goesOn).2

/-- No character that starts a construct belongs to a word. -/
theorem isWordChar_eq_false_of_construct (c : Char) (noText : isTextChar c = false) :
    isWordChar c = false := by
  rcases isTextChar_eq_false noText with rfl | rfl <;> rfl

/-- The name behind a bracket is the same in front of more text. -/
theorem tagName?_followed (starts : StartsConstruct more)
    (goesOn : cursor.token.kind ≠ .endOfFile) :
    (cursor.followed more).tagName? = cursor.tagName? := by
  obtain ⟨blanks, rest, begins, place, place'⟩ := exists_place_followed cursor more
  have named := tagName?_eq begins cursor.offset
  rw [← place] at named
  rw [place', named, tagName?_eq (begins.followed starts goesOn)]
  unfold leadingName?
  rw [(span_followed isWordChar starts isWordChar_eq_false_of_construct rest).1]

/-- A token that is found where it is asked for is found in front of more text. -/
theorem expect_followed (starts : StartsConstruct more) {kind : TokenKind}
    (isToken : kind ≠ .endOfFile) (clean : (cursor.expect kind).faults = []) :
    (cursor.followed more).expect kind = (cursor.expect kind).followed more := by
  unfold expect at clean ⊢
  split at clean
  case isFalse => cases clean
  case isTrue isKind =>
    have goesOn : cursor.token.kind ≠ .endOfFile := isKind ▸ isToken
    rw [token_followed starts goesOn, bump_followed starts goesOn, if_pos isKind, if_pos isKind]
    rfl

end Cursor

/-- An expression ends at the same bracket in front of more text. -/
theorem Expression.Scanner.run_followed {scanner : Expression.Scanner} {input inner after : Text}
    (ended : scanner.run input = some (inner, after)) (more : Text) :
    scanner.run (input ++ more) = some (inner, after ++ more) := by
  induction input generalizing scanner inner with
  | nil => cases ended
  | cons c rest ih =>
    rw [List.cons_append]
    unfold run at ended ⊢
    cases stepped : scanner.step c with
    | none =>
      simp only [stepped] at ended ⊢
      obtain ⟨rfl, rfl⟩ := Prod.mk.inj (Option.some.inj ended)
      rfl
    | some next =>
      simp only [stepped] at ended ⊢
      obtain ⟨⟨lead, tail⟩, deeper, same⟩ := Option.map_eq_some_iff.mp ended
      obtain ⟨rfl, rfl⟩ := Prod.mk.inj same
      rw [ih deeper]
      rfl

/-- A closing bracket is found in front of more text where it was found. -/
theorem Expression.closing?_followed {close : Char} {input inner after : Text}
    (ended : Expression.closing? close input = some (inner, after)) (more : Text) :
    Expression.closing? close (input ++ more) = some (inner, after ++ more) :=
  Scanner.run_followed ended more

/-- A construct in braces is the same in front of more text. -/
theorem Cursor.braced?_followed {cursor : Cursor} {braced : Braced} (starts : StartsConstruct more)
    (goesOn : cursor.token.kind ≠ .endOfFile) (found : cursor.braced? = some braced) :
    (cursor.followed more).braced? = some (braced.followed more) := by
  unfold braced? at found ⊢
  simp only [Option.bind_eq_bind, Option.bind_eq_some_iff, Option.pure_def, Option.some.injEq]
    at found ⊢
  obtain ⟨⟨inner, after⟩, closed, rfl⟩ := found
  rw [token_followed starts goesOn, bump_followed starts goesOn]
  exact ⟨(inner, after ++ more), Expression.closing?_followed closed more, rfl⟩

/-- What is taken by a test that fails on some character is the same in front of more text. -/
theorem span_append_of_left {test : Char → Bool} {c : Char}
    (left : text.dropWhile test = c :: rest) (more : Text) :
    (text ++ more).takeWhile test = text.takeWhile test ∧
      (text ++ more).dropWhile test = c :: (rest ++ more) := by
  have taken : ∀ d ∈ text.takeWhile test, test d = true := List.all_eq_true.mp List.all_takeWhile
  have stops : ∀ d ∈ (c :: (rest ++ more)).head?, test d = false := by
    intro d isHead
    refine head?_dropWhile text d ?_
    rw [left]
    exact isHead
  have whole : text ++ more = text.takeWhile test ++ (c :: (rest ++ more)) := by
    rw [← List.cons_append, ← left, ← List.append_assoc, List.takeWhile_append_dropWhile]
  rw [whole]
  exact ⟨takeWhile_blanks taken stops, dropWhile_blanks taken stops⟩

/-- The parts of a quoted value are the same in front of more text. -/
theorem quotedParts_followed {quote : Char} {offset : Nat} {input : Text} {parts : List ValuePart}
    {next : Cursor} (read : quotedParts quote offset input = .ok (parts, next)) (more : Text) :
    quotedParts quote offset (input ++ more) = .ok (parts, next.followed more) := by
  rw [quotedParts_eq] at read ⊢
  cases left : input.dropWhile (isLiteralChar quote) with
  | nil =>
    simp only [left] at read
    cases read
  | cons c rest =>
    obtain ⟨taken, dropped⟩ := span_append_of_left left more
    simp only [left, taken, dropped] at read ⊢
    by_cases same : c = quote
    · simp only [same, ↓reduceIte, Except.ok.injEq, Prod.mk.injEq] at read ⊢
      obtain ⟨isParts, rfl⟩ := read
      exact ⟨isParts, rfl⟩
    · cases closed : Expression.closing? '\x7d' rest with
      | none =>
        simp only [same, ↓reduceIte, closed] at read
        cases read
      | some cut =>
        obtain ⟨inner, after⟩ := cut
        simp only [same, ↓reduceIte, closed, Expression.closing?_followed closed more] at read ⊢
        cases deeper : quotedParts quote (offset +
          Text.bytes (input.takeWhile (isLiteralChar quote)) + 1 + inner.bytes + 1) after with
        | error missing =>
          rw [deeper] at read
          cases read
        | ok found =>
          obtain ⟨later, place⟩ := found
          have again := quotedParts_followed deeper more
          rw [deeper] at read
          rw [again]
          simp only [Except.map, Except.ok.injEq, Prod.mk.injEq] at read ⊢
          obtain ⟨isParts, rfl⟩ := read
          exact ⟨isParts, rfl⟩
termination_by input.length
decreasing_by exact length_afterExpression_lt left closed

/-- A quoted value without faults is the same in front of more text. -/
theorem quotedValue_followed {cursor : Cursor} (starts : StartsConstruct more)
    (goesOn : cursor.token.kind ≠ .endOfFile) (clean : (quotedValue cursor).faults = []) :
    quotedValue (cursor.followed more) = (quotedValue cursor).followed more := by
  unfold quotedValue at clean ⊢
  rw [Cursor.token_followed starts goesOn, Cursor.bump_followed starts goesOn]
  simp only at clean ⊢
  cases read : quotedParts (cursor.token.text.headD '"') cursor.bump.offset cursor.bump.rest with
  | error missing =>
    simp only [read] at clean
    cases clean
  | ok found =>
    obtain ⟨parts, next⟩ := found
    have again := quotedParts_followed read more
    unfold Cursor.followed
    simp only [again]
    rfl

/-- A value without quotes that ends before the text does is the same in front of more text. -/
theorem unquotedRun_followed {input run after : Text} (same : unquotedRun input = (run, after))
    (ends : after ≠ []) (more : Text) : unquotedRun (input ++ more) = (run, after ++ more) := by
  have joined := unquotedRun_append input
  rw [same] at joined
  obtain ⟨plain, open_, stops⟩ := unquotedRun_eq_iff.mp (joined ▸ same)
  rw [← joined, List.append_assoc]
  cases after with
  | nil => exact absurd rfl ends
  | cons c after =>
    refine unquotedRun_eq_iff.mpr ⟨plain, open_, .inr ?_⟩
    rcases stops with none | stops | ⟨tail, isEnd⟩
    · cases none
    · exact .inl stops
    · exact .inr ⟨tail ++ more, congrArg (· ++ more) isEnd⟩

/-- A value without quotes ends where its run does, unless a slash behind it belongs to its last
token. -/
theorem afterUnquoted_eq {run rest : Text} (other : ¬ (OpensToken run ∧ rest.head? = some '/'))
    (stop : Nat) : afterUnquoted run rest stop = ⟨stop, rest⟩ := by
  unfold afterUnquoted
  split
  case h_1 last => exact absurd ⟨.inl last, rfl⟩ other
  case h_2 last => exact absurd ⟨.inr last, rfl⟩ other
  case h_3 => rfl

/-- No character that starts a construct is white space. -/
theorem isSeparator_eq_false_of_construct (c : Char) (noText : isTextChar c = false) :
    Text.isSeparator c = false := by
  rcases isTextChar_eq_false noText with rfl | rfl <;> rfl

/-- The tag goes on at the same place behind a value without quotes, if it goes on at all. -/
theorem afterUnquoted_followed {run after : Text} {stop : Nat}
    (goesOn : (afterUnquoted run after stop).token.kind ≠ .endOfFile) (more : Text) :
    after ≠ [] ∧ afterUnquoted run (after ++ more) stop =
      (afterUnquoted run after stop).followed more := by
  cases after with
  | nil =>
    have noSlash : ¬ (OpensToken run ∧ ([] : Text).head? = some '/') := fun both => by cases both.2
    rw [afterUnquoted_eq noSlash] at goesOn
    exact absurd rfl goesOn
  | cons c after =>
    refine ⟨List.cons_ne_nil _ _, ?_⟩
    rw [List.cons_append]
    by_cases slash : OpensToken run ∧ c = '/'
    · obtain ⟨opens | opens, rfl⟩ := slash
      · simp only [afterUnquoted, opens, Cursor.followed]
      · simp only [afterUnquoted, opens, Cursor.followed]
    · have other (rest : Text) : ¬ (OpensToken run ∧ (c :: rest).head? = some '/') :=
        fun both => slash ⟨both.1, Option.some.inj both.2⟩
      rw [afterUnquoted_eq (other _), afterUnquoted_eq (other _)]
      rfl

/-- An attribute with a name is the same in front of more text, if it is without faults and not the
last token. -/
theorem namedAttribute_followed {cursor : Cursor} (starts : StartsConstruct more)
    (goesOn : cursor.token.kind ≠ .endOfFile) (clean : (namedAttribute cursor).faults = [])
    (behind : (namedAttribute cursor).next.token.kind ≠ .endOfFile) :
    namedAttribute (cursor.followed more) = (namedAttribute cursor).followed more := by
  unfold namedAttribute at clean behind ⊢
  rw [Cursor.token_followed starts goesOn, Cursor.bump_followed starts goesOn]
  by_cases equals : cursor.bump.token.kind = .equals
  · have goesOn' : cursor.bump.token.kind ≠ .endOfFile := by rw [equals]; decide
    simp only [Cursor.token_followed starts goesOn', Cursor.bump_followed starts goesOn', equals,
      ↓reduceIte] at clean behind ⊢
    by_cases ended : cursor.bump.bump.token.kind = .endOfFile
    · simp only [ended] at clean
      cases clean
    · simp only [Cursor.token_followed starts ended]
      split at clean
      case h_1 | h_2 =>
        rw [quotedValue_followed starts ended clean]
        rfl
      case h_3 =>
        cases found : cursor.bump.bump.braced? with
        | none =>
          simp only [found] at clean
          cases clean
        | some braced =>
          rw [Cursor.braced?_followed starts ended found]
          rfl
      case h_4 isKind | h_5 isKind =>
        simp only [isKind] at behind
        obtain ⟨ends, goes⟩ := afterUnquoted_followed behind more
        have blanks := (span_followed Text.isSeparator starts isSeparator_eq_false_of_construct
          cursor.bump.bump.rest).2
        have run : unquotedRun (cursor.bump.bump.rest.dropWhile Text.isSeparator ++ more) = _ :=
          unquotedRun_followed rfl ends more
        rw [← blanks] at run
        have place : (cursor.bump.bump.followed more).rest = cursor.bump.bump.rest ++ more := rfl
        simp only [place, run, goes]
        rfl
      case h_6 => cases clean
  · simp only [equals, ↓reduceIte] at behind
    simp only [Cursor.token_followed starts behind, equals, ↓reduceIte]
    rfl

/-- An attribute in braces without faults is the same in front of more text. -/
theorem bracedAttribute_followed {cursor : Cursor} (starts : StartsConstruct more)
    (goesOn : cursor.token.kind ≠ .endOfFile) (clean : (bracedAttribute cursor).faults = []) :
    bracedAttribute (cursor.followed more) = (bracedAttribute cursor).followed more := by
  unfold bracedAttribute at clean ⊢
  cases found : cursor.braced? with
  | none =>
    simp only [found] at clean
    cases clean
  | some braced =>
    rw [Cursor.braced?_followed starts goesOn found]
    rfl

/-- An attachment without faults is the same in front of more text. -/
theorem attachAttribute_followed {cursor : Cursor} (starts : StartsConstruct more)
    (goesOn : cursor.token.kind ≠ .endOfFile) (clean : (attachAttribute cursor).faults = []) :
    attachAttribute (cursor.followed more) = (attachAttribute cursor).followed more := by
  unfold attachAttribute at clean ⊢
  cases found : cursor.braced? with
  | none =>
    simp only [found] at clean
    cases clean
  | some braced =>
    rw [Cursor.braced?_followed starts goesOn found]
    have keyword : (braced.followed more).withKeyword = braced.withKeyword := rfl
    simp only [keyword]
    split <;> rfl

/-- Whatever attribute begins at a place is the same in front of more text, if it is without faults
and not the last token. -/
theorem attribute?_followed {cursor : Cursor} {reading : Reading (Option Attribute)}
    (starts : StartsConstruct more) (found : attribute? cursor = some reading)
    (clean : reading.faults = []) (behind : reading.next.token.kind ≠ .endOfFile) :
    attribute? (cursor.followed more) = some (reading.followed more) := by
  have goesOn : cursor.token.kind ≠ .endOfFile := by
    intro ended
    simp only [attribute?, ended, reduceCtorEq] at found
  unfold attribute? at found ⊢
  rw [Cursor.token_followed starts goesOn]
  split at found
  case h_1 | h_2 | h_3 => cases found
  case h_4 | h_5 =>
    obtain rfl := Option.some.inj found
    exact congrArg some (namedAttribute_followed starts goesOn clean behind)
  case h_6 =>
    obtain rfl := Option.some.inj found
    exact congrArg some (bracedAttribute_followed starts goesOn clean)
  case h_7 =>
    obtain rfl := Option.some.inj found
    exact congrArg some (attachAttribute_followed starts goesOn clean)
  case h_8 =>
    obtain rfl := Option.some.inj found
    cases clean

/-- A list of attributes without faults is the same in front of more text. -/
theorem attributes_followed {cursor : Cursor} (starts : StartsConstruct more)
    (clean : (attributes cursor).faults = [])
    (behind : (attributes cursor).next.token.kind ≠ .endOfFile) :
    attributes (cursor.followed more) = (attributes cursor).followed more := by
  fun_induction attributes cursor with
  | case1 cursor ended =>
    have same : attribute? (cursor.followed more) = none := by
      unfold attribute? at ended ⊢
      rw [Cursor.token_followed starts behind]
      split at ended
      case h_1 isKind | h_2 isKind | h_3 isKind => simp only [isKind]
      all_goals cases ended
    rw [attributes_of_attribute?_eq_none same]
    rfl
  | case2 cursor reading found less later ih =>
    obtain ⟨clean, cleanLater⟩ := List.append_eq_nil_iff.mp clean
    have behind' : reading.next.token.kind ≠ .endOfFile := by
      intro ended
      refine behind ?_
      have none : attribute? reading.next = none := by simp only [attribute?, ended]
      simp only [later, attributes_of_attribute?_eq_none none, ended]
    rw [attributes_of_attribute? (attribute?_followed starts found clean behind')]
    simp only [Reading.followed, later] at ih ⊢
    rw [ih cleanLater behind]

/-- An opening tag without faults is the same in front of more text. -/
theorem openTag_followed {cursor : Cursor} (starts : StartsConstruct more)
    (goesOn : cursor.token.kind ≠ .endOfFile) (clean : (openTag cursor).faults = []) :
    openTag (cursor.followed more) = (openTag cursor).followed more := by
  unfold openTag at clean ⊢
  rw [Cursor.token_followed starts goesOn, Cursor.bump_followed starts goesOn,
    Cursor.tagName?_followed starts goesOn]
  cases named : cursor.tagName? with
  | none =>
    simp only [named] at clean
    cases clean
  | some name =>
    have goesOn' : cursor.bump.token.kind ≠ .endOfFile := by
      intro ended
      simp only [Cursor.tagName?, ended, reduceCtorEq, false_and, ↓reduceIte] at named
    simp only [named] at clean
    simp only [Cursor.bump_followed starts goesOn']
    split at clean
    case isTrue closesItself =>
      have behind : (attributes cursor.bump.bump).next.token.kind ≠ .endOfFile := by
        rw [closesItself]
        decide
      rw [attributes_followed starts clean behind]
      simp only [Reading.followed, Cursor.token_followed starts behind,
        Cursor.bump_followed starts behind, closesItself, ↓reduceIte]
    case isFalse goesOn =>
      obtain ⟨clean, ends⟩ := List.append_eq_nil_iff.mp clean
      have behind : (attributes cursor.bump.bump).next.token.kind ≠ .endOfFile := by
        intro ended
        simp only [Cursor.expect, ended, reduceCtorEq, ↓reduceIte] at ends
      rw [attributes_followed starts clean behind]
      simp only [Reading.followed, Cursor.token_followed starts behind,
        Cursor.expect_followed starts (by decide) ends, goesOn, ↓reduceIte]

/-- A closing tag without faults is the same in front of more text. -/
theorem closingTag_followed {cursor : Cursor} {name : String} (starts : StartsConstruct more)
    (clean : (closingTag cursor name).faults = []) :
    closingTag (cursor.followed more) name = (closingTag cursor name).followed more := by
  unfold closingTag at clean ⊢
  by_cases closes : cursor.token.kind = .closingOpen
  · have goesOn : cursor.token.kind ≠ .endOfFile := by rw [closes]; decide
    by_cases named : cursor.tagName? = some name
    · have goesOn' : cursor.bump.token.kind ≠ .endOfFile := by
        intro ended
        simp only [Cursor.tagName?, ended, reduceCtorEq, false_and, ↓reduceIte] at named
      simp only [closes, named, ↓reduceIte] at clean
      simp only [Cursor.token_followed starts goesOn, Cursor.tagName?_followed starts goesOn,
        Cursor.bump_followed starts goesOn, Cursor.bump_followed starts goesOn', closes, named,
        ↓reduceIte]
      exact Cursor.expect_followed starts (by decide) clean
    · simp only [closes, named, ↓reduceIte] at clean
      cases clean
  · simp only [closes, ↓reduceIte] at clean
    cases clean

/-- A closing tag without faults has some text to stand in. -/
theorem rest_ne_nil_of_closingTag {cursor : Cursor} {name : String}
    (clean : (closingTag cursor name).faults = []) : cursor.rest ≠ [] := by
  intro ended
  simp only [closingTag, Cursor.kind_of_ended ended, reduceCtorEq, ↓reduceIte] at clean

/-- What ends where something is found ends at the same place in front of more text. -/
theorem spanUntil_followed (lead : Text) (noColon : ':' ∉ lead) (noUnderscore : '_' ∉ lead)
    (found : (Text.spanUntil (Text.startsWith lead) text).2 ≠ []) (more : Text) :
    Text.spanUntil (Text.startsWith lead) (text ++ more) =
      ((Text.spanUntil (Text.startsWith lead) text).1,
        (Text.spanUntil (Text.startsWith lead) text).2 ++ more) := by
  obtain ⟨quiet, ends⟩ := quiet_spanUntil (Text.startsWith lead) text
  have whole := Text.spanUntil_append (Text.startsWith lead) text
  generalize Text.spanUntil (Text.startsWith lead) text = cut at *
  obtain ⟨content, left⟩ := cut
  obtain ⟨tail, isLead⟩ := Option.isSome_iff_exists.mp (ends.resolve_left found)
  obtain rfl := Text.dropLead?_eq_some.mp isLead
  have quiet' : Quiet (Text.startsWith lead) content (lead ++ (tail ++ more)) :=
    quiet.replace noColon noUnderscore (.refl content) (.refl lead) (.inl (Nat.le_refl _)) _
  rw [← whole, List.append_assoc, List.append_assoc]
  exact spanUntil_of_quiet quiet' (.inr (startsWith_append _ _))

/-- The content ends at the same place in front of more text, if it ends at a closing tag. -/
theorem rawContent_followed {cursor : Cursor} {name : String} (plainName : PlainName name)
    (clean : (closingTag (rawContent cursor name).2.2 name).faults = []) (more : Text) :
    rawContent (cursor.followed more) name = ((rawContent cursor name).1,
      (rawContent cursor name).2.1, (rawContent cursor name).2.2.followed more) := by
  have split := spanUntil_followed (closingLead name) (plainName.not_mem (.inl rfl))
    (plainName.not_mem (.inr (.inl rfl))) (rest_ne_nil_of_closingTag clean) more
  unfold rawContent Cursor.followed
  simp only [split]
  rfl

/-- The text of a text area is the same in front of more text, if its closing tag
follows. -/
theorem textContent_followed {name : String} (plainName : PlainName name) (cursor : Cursor)
    (clean : (textContent name cursor).faults = [])
    (ends : (closingTag (textContent name cursor).next name).faults = []) (more : Text) :
    textContent name (cursor.followed more) = (textContent name cursor).followed more := by
  fun_induction textContent name cursor with
  | case1 => cases clean
  | case2 cursor isStop found place leading inside left inner after closed stop codeSpan code isCode _
      reading ih =>
    obtain ⟨quiet, -⟩ := quiet_spanUntil (stopsText name) cursor.rest
    have whole := Text.spanUntil_append (stopsText name) cursor.rest
    rw [show Text.spanUntil (stopsText name) cursor.rest = found from rfl, left] at quiet whole
    have quiet' : Quiet (stopsText name) found.1 (['\x7b'] ++ (inside ++ more)) :=
      Quiet.replace_text plainName (show Quiet _ _ (['\x7b'] ++ _) from quiet) (.refl found.1)
        (.inr rfl) _
    have split : (cursor.followed more).rest = found.1 ++ '\x7b' :: (inside ++ more) := by
      rw [Cursor.followed, ← whole, List.append_assoc]
      rfl
    have deeper : textContent name ⟨stop, after ++ more⟩ = reading.followed more := ih clean ends
    rw [textContent_of_expression quiet' (Expression.closing?_followed closed more) split]
    show (let code := trimmed (place.offset + 1) inner
      let later := textContent name ⟨stop, after ++ more⟩
      (⟨leading ++ Node.expression ⟨⟨place.offset, stop⟩, code.1, String.ofList code.2⟩ :: later.value,
        later.faults, later.next⟩ : Reading (List Node))) = _
    rw [deeper, isCode]
    rfl
  | case3 cursor isStop found place leading noBrace =>
    obtain ⟨quiet, stops⟩ := quiet_spanUntil (stopsText name) cursor.rest
    have whole := Text.spanUntil_append (stopsText name) cursor.rest
    rw [show Text.spanUntil (stopsText name) cursor.rest = found from rfl] at quiet stops whole
    -- The closing tag is there, so the text does not go on to the end.
    have nonempty := rest_ne_nil_of_closingTag ends
    have closes : Text.startsWith (closingLead name) found.2 = true := by
      rcases Bool.or_eq_true_iff.mp (stops.resolve_left nonempty) with brace | closes
      · obtain ⟨tail, isBrace⟩ := eq_append_of_startsWith brace
        exact absurd isBrace (noBrace tail)
      · exact closes
    obtain ⟨tail, isLead⟩ := eq_append_of_startsWith closes
    rw [isLead] at quiet whole
    have quiet' : Quiet (stopsText name) found.1 (closingLead name ++ (tail ++ more)) :=
      quiet.replace_text plainName (.refl found.1) (.inl rfl) _
    have split : (cursor.followed more).rest = found.1 ++ (closingLead name ++ (tail ++ more)) := by
      rw [Cursor.followed, ← whole, List.append_assoc, List.append_assoc]
    rw [textContent_of_text quiet' split]
    simp only [Reading.followed, Cursor.followed, place, Cursor.past, isLead, List.append_assoc]
    rfl

/-- A script or style without faults is the same in front of more text. -/
theorem rawElement_followed {cursor : Cursor} {name : String} (starts : StartsConstruct more)
    (goesOn : cursor.token.kind ≠ .endOfFile) (plainName : PlainName name)
    (named : cursor.tagName? = some name) (clean : (rawElement cursor).faults = []) :
    rawElement (cursor.followed more) = (rawElement cursor).followed more := by
  unfold rawElement at clean ⊢
  cases read : (openTag cursor).value with
  | none =>
    simp only [read] at clean
    obtain ⟨tag, isTag⟩ := openTag_of_clean clean
    rw [read] at isTag
    cases isTag
  | some tag =>
    simp only [read] at clean
    obtain rfl : name = tag.name := Option.some.inj (named.symm.trans (openTag_name read))
    by_cases closesItself : tag.selfClosing
    · simp only [closesItself, ↓reduceIte] at clean
      rw [openTag_followed starts goesOn clean]
      simp only [Reading.followed, read, closesItself, ↓reduceIte]
      rfl
    · simp only [closesItself, Bool.false_eq_true, ↓reduceIte] at clean
      obtain ⟨clean, ends⟩ := List.append_eq_nil_iff.mp clean
      rw [openTag_followed starts goesOn clean]
      simp only [Reading.followed, read, closesItself, Bool.false_eq_true, ↓reduceIte,
        rawContent_followed plainName ends more, closingTag_followed starts ends]
      rfl

end ClassHoist.Markup
