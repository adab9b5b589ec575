import ClassHoist.Proofs.Unquoted

/-! # Named attributes in other surroundings

The text of a named attribute that is read without faults has one of a few forms (`NamedText`), and
every text of such a form is read as an attribute as far as its end, in front of whatever the form
allows to follow. The forms are kept by renaming, so a renamed attribute is read without faults too
(`namedAttribute_replace`).
-/

namespace ClassHoist.Markup

/-- Nothing is wrong with what was read, and the text goes on with `rest`. -/
def Reading.Clean {Content : Type} (reading : Reading Content) (rest : Text) : Prop :=
  reading.faults = [] ∧ reading.next.rest = rest

/-- The code of an expression, closed by a brace and not starting as that of a block or tag. -/
structure CodeText (inner : Text) : Prop where
  plain : ∀ c ∈ (inner ++ ['\x7d']).head?, c ≠ '#' ∧ c ≠ '/' ∧ c ≠ ':' ∧ c ≠ '@'
  closed : Expression.closing? '\x7d' (inner ++ ['\x7d']) = some (inner, [])

/-- The code of an expression is one after renaming. -/
theorem CodeText.twins {inner out : Text} (code : CodeText inner) (twins : Twins inner out) :
    CodeText out := by
  refine ⟨?_, Expression.closing?_twins code.closed twins []⟩
  cases twins with
  | nil => exact code.plain
  | @cons c d inner out twin rest =>
    obtain ⟨notHash, notSlash, notColon, notAt⟩ := code.plain c rfl
    intro e isHead
    obtain rfl := Option.some.inj isHead
    obtain rfl := twin.eq_of_ne_colon notColon
    exact ⟨notHash, notSlash, notColon, notAt⟩

/-- The text of a value up to where the tag goes on with `rest`. -/
inductive ValueText (rest : Text) : Text → Prop where
  | quoted {blanks text : Text} {quote : Char} (blank : ∀ c ∈ blanks, Text.isSeparator c = true)
      (isQuote : quote = '"' ∨ quote = '\'') (quoted : Quoted quote text) :
      ValueText rest (blanks ++ ([quote] ++ text))
  | braced {blanks inner : Text} (blank : ∀ c ∈ blanks, Text.isSeparator c = true)
      (code : CodeText inner) : ValueText rest (blanks ++ (['\x7b'] ++ (inner ++ ['\x7d'])))
  | unquoted {blanks run after : Text} (blank : ∀ c ∈ blanks, Text.isSeparator c = true)
      (starts : ∃ c ∈ run.head?, isWordChar c = true) (unquoted : Unquoted run after rest) :
      ValueText rest (blanks ++ (run ++ after))

/-- The text of a named attribute up to where the tag goes on with `rest`. -/
inductive NamedText (rest : Text) : Text → Prop where
  | absent {blanks name : Text} (blank : ∀ c ∈ blanks, Text.isSeparator c = true)
      (isWord : IsWord name) (stops : ∀ c ∈ rest.head?, isWordChar c = false)
      (noEquals : ∀ offset, (Cursor.token ⟨offset, rest⟩).kind ≠ .equals) :
      NamedText rest (blanks ++ name)
  | assigned {blanks name blanks' value : Text}
      (blank : ∀ c ∈ blanks, Text.isSeparator c = true) (isWord : IsWord name)
      (blank' : ∀ c ∈ blanks', Text.isSeparator c = true) (assigned : ValueText rest value) :
      NamedText rest (blanks ++ (name ++ (blanks' ++ (['='] ++ value))))

/-- The attribute declares a script to be shared. -/
def Attribute.isShared (entry : Attribute) : Bool :=
  entry.declares ["context"] (· == some "module") || entry.declares ["module"] fun _ => true

variable {blanks blanks' name name' value inner inside run after text out rest rest' taken : Text}
  {quote : Char} {kind : TokenKind} {offset : Nat}

/-- The token of a name or a word is a run. -/
theorem isRun_ite (name : Text) : (if isName name then TokenKind.name else .word).IsRun := by
  split
  · exact .inl rfl
  · exact .inr rfl

/-- An equals sign is a token whatever follows. -/
theorem begins_equals (blank : ∀ c ∈ blanks, Text.isSeparator c = true) (rest : Text) :
    Begins .equals blanks ['='] rest :=
  ⟨blank, fun _ isHead => Option.some.inj isHead ▸ rfl, rfl⟩

/-- A separator stands in no word. -/
theorem isWordChar_blanks {c : Char} (blank : ∀ d ∈ blanks, Text.isSeparator d = true)
    (solid : isWordChar c = false) (rest : Text) :
    ∀ d ∈ (blanks ++ c :: rest).head?, isWordChar d = false := by
  intro d isHead
  cases blanks with
  | nil => exact Option.some.inj isHead ▸ solid
  | cons e blanks =>
    obtain rfl := Option.some.inj isHead
    simp only [isWordChar, Text.isBlank_of_isSeparator (blank e List.mem_cons_self), Bool.true_or,
      Bool.not_true]

/-- No run of characters without structure goes on with a separator or an equals sign. -/
theorem stops_before_equals (blank : ∀ c ∈ blanks, Text.isSeparator c = true) (rest : Text) :
    ∀ c ∈ (blanks ++ (['='] ++ rest)).head?, isWordChar c = false :=
  isWordChar_blanks blank rfl rest

/-- A quote is a token. -/
theorem begins_quote (isQuote : quote = '"' ∨ quote = '\'')
    (blank : ∀ c ∈ blanks, Text.isSeparator c = true) (rest : Text) :
    ∃ kind, (kind = .doubleQuote ∨ kind = .singleQuote) ∧ Begins kind blanks [quote] rest := by
  rcases isQuote with rfl | rfl
  · exact ⟨.doubleQuote, .inl rfl, blank, fun c isHead => Option.some.inj isHead ▸ rfl, rfl⟩
  · exact ⟨.singleQuote, .inr rfl, blank, fun c isHead => Option.some.inj isHead ▸ rfl, rfl⟩

/-- What is read of the text of a named attribute. -/
theorem namedAttribute_absent (blank : ∀ c ∈ blanks, Text.isSeparator c = true)
    (isWord : IsWord name) (stops : ∀ c ∈ rest.head?, isWordChar c = false)
    (noEquals : ∀ offset, (Cursor.token ⟨offset, rest⟩).kind ≠ .equals) (offset : Nat) :
    let reading := namedAttribute ⟨offset, blanks ++ (name ++ rest)⟩
    reading.Clean rest ∧ ∃ span, reading.value = some (.named span (String.ofList name) .absent) := by
  have begins := begins_of_isWord blank isWord stops
  unfold namedAttribute
  simp only [begins.token, begins.bump, noEquals, ↓reduceIte]
  exact ⟨⟨rfl, rfl⟩, _, rfl⟩

/-- A name, an equals sign and a value in quotes are read as an attribute. -/
theorem namedAttribute_quoted (blank : ∀ c ∈ blanks, Text.isSeparator c = true)
    (isWord : IsWord name) (blank' : ∀ c ∈ blanks', Text.isSeparator c = true)
    {blanks'' : Text} (blank'' : ∀ c ∈ blanks'', Text.isSeparator c = true)
    (isQuote : quote = '"' ∨ quote = '\'') (quoted : Quoted quote text) (rest : Text)
    (offset : Nat) :
    let reading := namedAttribute ⟨offset,
      blanks ++ (name ++ (blanks' ++ (['='] ++ (blanks'' ++ ([quote] ++ (text ++ rest))))))⟩
    let place := offset + Text.bytes (blanks ++ (name ++ (blanks' ++ (['='] ++ (blanks'' ++ [quote])))))
    reading.Clean rest ∧ ∃ span parts next,
      quotedParts quote place (text ++ rest) = .ok (parts, next) ∧
        reading.value = some (.named span (String.ofList name) (.ofParts place parts)) := by
  have begins := begins_of_isWord blank isWord
    (stops_before_equals blank' (blanks'' ++ ([quote] ++ (text ++ rest))))
  have equals := begins_equals blank' (blanks'' ++ ([quote] ++ (text ++ rest)))
  have notBrace : quote ≠ '\x7b' := by rcases isQuote with rfl | rfl <;> decide
  obtain ⟨kind, isKind, opens⟩ := begins_quote isQuote blank'' (text ++ rest)
  unfold namedAttribute quotedValue
  simp only [begins.token, begins.bump, equals.token, equals.bump, ↓reduceIte, opens.token,
    opens.bump, List.headD_cons]
  have place : offset + Text.bytes blanks + Text.bytes name + Text.bytes blanks' +
      Text.bytes ['='] + Text.bytes blanks'' + Text.bytes [quote] = offset +
        Text.bytes (blanks ++ (name ++ (blanks' ++ (['='] ++ (blanks'' ++ [quote]))))) := by
    simp only [Text.bytes_append, Nat.add_assoc]
  rw [place]
  obtain ⟨parts, next, done, isRest⟩ := quoted.read notBrace (offset +
    Text.bytes (blanks ++ (name ++ (blanks' ++ (['='] ++ (blanks'' ++ [quote])))))) rest
  rcases isKind with rfl | rfl
  all_goals
    simp only [done, Option.map_some]
    exact ⟨⟨rfl, isRest⟩, _, parts, next, rfl, rfl⟩

/-- A construct in braces is read as far as the brace that ends its code. -/
theorem Begins.braced? {symbol : Text} (begins : Begins kind blanks symbol (inner ++ (['\x7d'] ++ rest)))
    (closed : Expression.closing? '\x7d' (inner ++ ['\x7d']) = some (inner, [])) (offset : Nat) :
    ∃ braced, Cursor.braced? ⟨offset, blanks ++ (symbol ++ (inner ++ (['\x7d'] ++ rest)))⟩ = some braced ∧
      braced.inner = inner ∧ braced.next.rest = rest := by
  have ends := Expression.closing?_twins closed (.refl inner) rest
  unfold Cursor.braced?
  rw [begins.bump]
  simp only
  rw [List.singleton_append, ends]
  exact ⟨_, rfl, rfl, rfl⟩

/-- An opening brace in front of code is a token of its own. -/
theorem CodeText.begins (code : CodeText inner) (blank : ∀ c ∈ blanks, Text.isSeparator c = true)
    (rest : Text) : Begins .braceOpen blanks ['\x7b'] (inner ++ (['\x7d'] ++ rest)) := by
  refine begins_braceOpen blank fun c isHead => code.plain c ?_
  cases inner with
  | nil => exact isHead
  | cons d inner => exact isHead

/-- A name, an equals sign and an expression are read as an attribute. -/
theorem namedAttribute_braced (blank : ∀ c ∈ blanks, Text.isSeparator c = true)
    (isWord : IsWord name) (blank' : ∀ c ∈ blanks', Text.isSeparator c = true)
    {blanks'' : Text} (blank'' : ∀ c ∈ blanks'', Text.isSeparator c = true)
    (code : CodeText inner) (rest : Text) (offset : Nat) :
    let reading := namedAttribute ⟨offset, blanks ++ (name ++ (blanks' ++ (['='] ++
      (blanks'' ++ (['\x7b'] ++ (inner ++ (['\x7d'] ++ rest)))))))⟩
    reading.Clean rest ∧ ∃ span embedded,
      reading.value = some (.named span (String.ofList name) (.expression embedded)) := by
  have begins := begins_of_isWord blank isWord
    (stops_before_equals blank' (blanks'' ++ (['\x7b'] ++ (inner ++ (['\x7d'] ++ rest)))))
  have equals := begins_equals blank' (blanks'' ++ (['\x7b'] ++ (inner ++ (['\x7d'] ++ rest))))
  have opens := code.begins blank'' rest
  obtain ⟨braced, found, -, isRest⟩ := opens.braced? code.closed
    (offset + Text.bytes blanks + Text.bytes name + Text.bytes blanks' + Text.bytes ['='])
  unfold namedAttribute
  simp only [begins.token, begins.bump, equals.token, equals.bump, ↓reduceIte, opens.token, found]
  exact ⟨⟨rfl, isRest⟩, _, _, rfl⟩

/-- A name, an equals sign and a value without quotes are read as an attribute. -/
theorem namedAttribute_unquoted (blank : ∀ c ∈ blanks, Text.isSeparator c = true)
    (isWord : IsWord name) (blank' : ∀ c ∈ blanks', Text.isSeparator c = true)
    {blanks'' : Text} (blank'' : ∀ c ∈ blanks'', Text.isSeparator c = true)
    (starts : ∃ c ∈ run.head?, isWordChar c = true) (unquoted : Unquoted run after rest)
    (offset : Nat) :
    let reading := namedAttribute ⟨offset,
      blanks ++ (name ++ (blanks' ++ (['='] ++ (blanks'' ++ (run ++ (after ++ rest))))))⟩
    let place := offset + Text.bytes (blanks ++ (name ++ (blanks' ++ (['='] ++ blanks''))))
    reading.Clean rest ∧ ∃ span stop, reading.value =
      some (.named span (String.ofList name) (.text ⟨⟨place, stop⟩, String.ofList run⟩)) := by
  have begins := begins_of_isWord blank isWord
    (stops_before_equals blank' (blanks'' ++ (run ++ (after ++ rest))))
  have equals := begins_equals blank' (blanks'' ++ (run ++ (after ++ rest)))
  obtain ⟨c, isHead, isRun⟩ := starts
  obtain ⟨run, rfl⟩ := List.head?_eq_some_iff.mp isHead
  have notSeparator := isSeparator_of_isWordChar isRun
  have kept : (blanks'' ++ (c :: run ++ (after ++ rest))).dropWhile Text.isSeparator =
      c :: run ++ (after ++ rest) :=
    dropWhile_blanks blank'' fun d isHead => Option.some.inj isHead ▸ notSeparator
  have kind (offset : Nat) :
      (Cursor.token ⟨offset, blanks'' ++ (c :: run ++ (after ++ rest))⟩).kind.IsRun := by
    have split : lexeme (c :: run ++ (after ++ rest)) = wordLexeme (c :: run ++ (after ++ rest)) :=
      lexeme_run isRun
    simp only [Cursor.token, firstToken, kept, split]
    unfold wordLexeme
    rw [List.cons_append, List.takeWhile_cons_of_pos isRun]
    exact isRun_ite _
  have place : (Cursor.token ⟨offset + Text.bytes blanks + Text.bytes name + Text.bytes blanks' +
      Text.bytes ['='], blanks'' ++ (c :: run ++ (after ++ rest))⟩).span.start = offset +
        Text.bytes (blanks ++ (name ++ (blanks' ++ (['='] ++ blanks'')))) := by
    have taken : (blanks'' ++ (c :: run ++ (after ++ rest))).takeWhile Text.isSeparator = blanks'' :=
      takeWhile_blanks blank'' fun d isHead => Option.some.inj isHead ▸ notSeparator
    rw [Cursor.token_start, taken]
    simp only [Text.bytes_append, Nat.add_assoc]
  unfold namedAttribute
  simp only [begins.token, begins.bump, equals.token, equals.bump, ↓reduceIte, kept, unquoted.read,
    place]
  rcases kind (offset + Text.bytes blanks + Text.bytes name + Text.bytes blanks' +
    Text.bytes ['=']) with isName | isWord'
  all_goals
    simp only [*]
    exact ⟨⟨rfl, unquoted.goesOn _⟩, _, _, rfl⟩

/-- The text of a named attribute is read as far as its end. -/
theorem NamedText.read (form : NamedText rest taken) (offset : Nat) :
    (Cursor.token ⟨offset, taken ++ rest⟩).kind.IsRun ∧
      (namedAttribute ⟨offset, taken ++ rest⟩).Clean rest := by
  cases form with
  | absent blank isWord stops noEquals =>
    rw [List.append_assoc, (begins_of_isWord blank isWord stops).token]
    exact ⟨isRun_ite _, (namedAttribute_absent blank isWord stops noEquals offset).1⟩
  | assigned blank isWord blank' assigned =>
    cases assigned with
    | quoted blank'' isQuote quoted =>
      simp only [List.append_assoc]
      rw [(begins_of_isWord blank isWord (stops_before_equals blank' _)).token]
      exact ⟨isRun_ite _,
        (namedAttribute_quoted blank isWord blank' blank'' isQuote quoted rest offset).1⟩
    | braced blank'' code =>
      simp only [List.append_assoc]
      rw [(begins_of_isWord blank isWord (stops_before_equals blank' _)).token]
      exact ⟨isRun_ite _, (namedAttribute_braced blank isWord blank' blank'' code rest offset).1⟩
    | unquoted blank'' starts unquoted =>
      simp only [List.append_assoc]
      rw [(begins_of_isWord blank isWord (stops_before_equals blank' _)).token]
      exact ⟨isRun_ite _,
        (namedAttribute_unquoted blank isWord blank' blank'' starts unquoted offset).1⟩

/-- What stands in front of the closing brace is the code of an expression, if no sign starts it. -/
theorem closing?_codeText {input : Text} (closed : Expression.closing? '\x7d' input = some (inner, rest))
    (plain : ∀ c ∈ input.head?, c ≠ '#' ∧ c ≠ '/' ∧ c ≠ ':' ∧ c ≠ '@') :
    CodeText inner ∧ input = inner ++ (['\x7d'] ++ rest) := by
  have split := Expression.closing?_eq_some closed
  refine ⟨⟨?_, Expression.closing?_twins closed (.refl inner) []⟩, split⟩
  rw [split] at plain
  intro c isHead
  refine plain c ?_
  cases inner with
  | nil => exact isHead
  | cons d inner => exact isHead

/-- What is read as a value in quotes without faults has the text of one. -/
theorem quotedValue_text (begins : Begins kind blanks [quote] inside)
    (isQuote : quote = '"' ∨ quote = '\'')
    (clean : (quotedValue ⟨offset, blanks ++ ([quote] ++ inside)⟩).Clean rest) :
    ∃ taken, blanks ++ ([quote] ++ inside) = taken ++ rest ∧ ValueText rest taken := by
  obtain ⟨noFaults, ends⟩ := clean
  unfold quotedValue at noFaults ends
  simp only [begins.token, begins.bump, List.headD_cons] at noFaults ends
  split at ends
  case h_2 unclosed =>
    rw [unclosed] at noFaults
    cases noFaults
  case h_1 parts next done =>
    obtain ⟨taken, quoted, split⟩ := quotedParts_quoted done
    refine ⟨_, ?_, .quoted begins.blank isQuote quoted⟩
    rw [split, ends]
    simp only [List.append_assoc]

/-- What is read as a value without quotes, and without faults, has the text of one. -/
theorem unquotedRun_text {stop : Nat} (begins : Begins kind blanks text run) (isRun : kind.IsRun)
    (read : unquotedRun (text ++ run) = (value, after))
    (ends : (afterUnquoted value after stop).rest = rest) :
    ∃ taken, blanks ++ (text ++ run) = taken ++ rest ∧ ValueText rest taken := by
  obtain ⟨isWord, stops, -⟩ := begins.run isRun
  obtain ⟨slash, split, unquoted⟩ := exists_unquoted read stop
  rw [ends] at split unquoted
  have joined := unquotedRun_append (text ++ run)
  rw [read] at joined
  refine ⟨blanks ++ (value ++ slash), ?_, .unquoted begins.blank ?_ unquoted⟩
  · rw [← joined, split]
    simp only [List.append_assoc]
  · cases text with
    | nil => exact absurd rfl isWord.1
    | cons c text =>
      have isChar := isWord.2 c List.mem_cons_self
      cases value with
      | cons d value =>
        obtain ⟨rfl, -⟩ := List.cons.inj joined
        exact ⟨d, rfl, isChar⟩
      | nil =>
        rw [List.cons_append, unquotedRun_cons] at read
        split at read
        case isFalse => cases congrArg Prod.fst read
        case isTrue stops =>
          rcases stops with separator | ⟨rfl, -⟩
          · simp only [isUnquotedChar, Bool.and_eq_false_iff, Bool.not_eq_false',
              bne_eq_false_iff_eq] at separator
            rcases separator with blank | rfl
            · rw [begins.solid c rfl] at blank
              cases blank
            · cases isChar
          · cases isChar

/-- What is read as a named attribute without faults has the text of one. -/
theorem namedAttribute_text {input : Text}
    (isRun : (Cursor.token ⟨offset, input⟩).kind.IsRun)
    (clean : (namedAttribute ⟨offset, input⟩).Clean rest) :
    ∃ taken, input = taken ++ rest ∧ NamedText rest taken := by
  obtain ⟨noFaults, ends⟩ := clean
  obtain ⟨kind, blanks, name, afterName, rfl, begins⟩ := exists_begins input
  rw [begins.token] at isRun
  obtain ⟨isWord, stops, -⟩ := begins.run isRun
  unfold namedAttribute at noFaults ends
  simp only [begins.token, begins.bump] at noFaults ends
  split at ends
  case isFalse noEquals =>
    obtain rfl := ends
    exact ⟨_, (List.append_assoc _ _ _).symm, .absent begins.blank isWord stops fun _ => noEquals⟩
  case isTrue isEquals =>
    rw [if_pos isEquals] at noFaults
    obtain ⟨kind', blanks', equals, place, rfl, begins'⟩ := exists_begins afterName
    rw [begins'.token] at isEquals
    obtain rfl := isEquals
    obtain rfl := begins'.text_eq rfl
    rw [begins'.bump] at noFaults ends
    -- Behind the equals sign all depends on the token with which the value starts.
    suffices ∃ taken, place = taken ++ rest ∧ ValueText rest taken by
      obtain ⟨taken, rfl, form⟩ := this
      refine ⟨_, ?_, .assigned begins.blank isWord begins'.blank form⟩
      simp only [List.append_assoc]
    obtain ⟨kind'', blanks'', text, inside, rfl, begins''⟩ := exists_begins place
    simp only [begins''.token] at noFaults ends
    split at ends
    case h_1 =>
      obtain rfl := begins''.text_eq rfl
      exact quotedValue_text begins'' (.inl rfl) ⟨noFaults, ends⟩
    case h_2 =>
      obtain rfl := begins''.text_eq rfl
      exact quotedValue_text begins'' (.inr rfl) ⟨noFaults, ends⟩
    case h_3 =>
      obtain rfl := begins''.text_eq rfl
      simp only at noFaults
      split at ends
      case h_1 unclosed =>
        rw [unclosed] at noFaults
        cases noFaults
      case h_2 braced found =>
        obtain ⟨closed, -⟩ := Cursor.braced?_eq_some found
        rw [begins''.bump] at closed
        obtain ⟨code, split⟩ := closing?_codeText closed begins''.braceOpen_plain
        simp only at split
        refine ⟨_, ?_, .braced begins''.blank code⟩
        rw [split, ← ends]
        simp only [List.append_assoc]
    case h_4 | h_5 =>
      have kept := dropWhile_blanks begins''.blank begins''.head?_append
      rw [kept] at ends
      exact unquotedRun_text begins'' (by first | exact .inl rfl | exact .inr rfl) rfl ends
    case h_6 =>
      simp only at noFaults
      cases noFaults

/-- Whether an attribute declares a script to be shared is settled by its name and the text with
which its value starts. -/
theorem Attribute.isShared_twins {span span' : Span} {value value' : Value}
    (names : Twins name name')
    (values : value'.leadingText?.map Literal.raw = some "module" ↔
      value.leadingText?.map Literal.raw = some "module") :
    (Attribute.named span' (String.ofList name') value').isShared =
      (Attribute.named span (String.ofList name) value).isShared := by
  have sameName (word : String) (noColon : ':' ∉ word.toList) (noUnderscore : '_' ∉ word.toList) :
      String.ofList name' = word ↔ String.ofList name = word := by
    rw [← String.toList_inj, ← String.toList_inj, String.toList_ofList, String.toList_ofList]
    exact names.eq_iff noColon noUnderscore
  have context := sameName "context" (by decide) (by decide)
  have module := sameName "module" (by decide) (by decide)
  rw [Bool.eq_iff_iff]
  simp only [isShared, declares, List.contains_cons, List.contains_nil, Bool.or_false,
    Bool.or_eq_true, Bool.and_eq_true, beq_iff_eq, and_true, context, module, values]

/-- A quote is neither colon nor underscore. -/
theorem quote_ne (isQuote : quote = '"' ∨ quote = '\'') : quote ≠ ':' ∧ quote ≠ '_' := by
  rcases isQuote with rfl | rfl <;> decide

section

variable (blank : ∀ c ∈ blanks, Text.isSeparator c = true)
include blank

/-- An assigned value is renamed apart from its name. -/
theorem twins_assigned (blank' : ∀ c ∈ blanks', Text.isSeparator c = true)
    (twins : Twins (blanks ++ (name ++ (blanks' ++ (['='] ++ value)))) out) :
    ∃ name' value', out = blanks ++ (name' ++ (blanks' ++ (['='] ++ value'))) ∧
      Twins name name' ∧ Twins value value' := by
  obtain ⟨out₁, rfl, twins₁⟩ := twins.append_left (no_colon_of_blank blank)
  obtain ⟨name', out₂, rfl, names, twins₂⟩ := twins₁.append
  obtain ⟨out₃, rfl, twins₃⟩ := twins₂.append_left (no_colon_of_blank blank')
  obtain ⟨value', rfl, values⟩ := twins₃.append_left (by decide)
  exact ⟨name', value', rfl, names, values⟩

/-- A value in quotes is renamed between its quotes. -/
theorem twins_quoted (isQuote : quote = '"' ∨ quote = '\'')
    (twins : Twins (blanks ++ ([quote] ++ text)) out) :
    ∃ text', out = blanks ++ ([quote] ++ text') ∧ Twins text text' := by
  obtain ⟨out₁, rfl, twins₁⟩ := twins.append_left (no_colon_of_blank blank)
  obtain ⟨text', rfl, texts⟩ := twins₁.append_left (by rcases isQuote with rfl | rfl <;> decide)
  exact ⟨text', rfl, texts⟩

/-- A value without quotes is renamed in front of the slash. -/
theorem twins_unquoted (slash : after = [] ∨ after = ['/'])
    (twins : Twins (blanks ++ (run ++ after)) out) :
    ∃ run', out = blanks ++ (run' ++ after) ∧ Twins run run' := by
  obtain ⟨out₁, rfl, twins₁⟩ := twins.append_left (no_colon_of_blank blank)
  obtain ⟨run', rfl, runs⟩ := twins₁.append_right (by rcases slash with rfl | rfl <;> decide)
  exact ⟨run', rfl, runs⟩

end

/-- A renamed value without quotes starts as one. -/
theorem head?_twins (twins : Twins run out) (starts : ∃ c ∈ run.head?, isWordChar c = true) :
    ∃ c ∈ out.head?, isWordChar c = true := by
  obtain ⟨c, isHead, isChar⟩ := starts
  cases twins with
  | nil => cases isHead
  | @cons c' d run out twin _ =>
    obtain rfl := Option.some.inj isHead
    exact ⟨d, rfl, (twin.test_eq (show Steady isWordChar from rfl)).trans isChar⟩

/-- A renamed value without quotes ends where it ended. -/
theorem Unquoted.twins (unquoted : Unquoted run after rest) (twins : Twins run out)
    (front : Front rest rest') : Unquoted out after rest' := by
  refine unquoted.replace (twins.forall_mem fun c member d twin => ?_) (.of_twins twins) front
  exact (twin.test_eq (show Steady isUnquotedChar from rfl)).trans
    ((unquotedRun_eq_iff.mp unquoted.read).1 c member)

/-- The text of a value keeps its form when it is renamed. -/
theorem ValueText.twins (form : ValueText rest value) (twins : Twins value out)
    (front : Front rest rest') : ValueText rest' out := by
  cases form with
  | @quoted blanks text quote blank isQuote quoted =>
    obtain ⟨notColon, notUnderscore⟩ := quote_ne isQuote
    obtain ⟨text', rfl, texts⟩ := twins_quoted blank isQuote twins
    exact .quoted blank isQuote (quoted.twins notColon notUnderscore texts)
  | @braced blanks inner blank code =>
    obtain ⟨inner', rfl, inners⟩ := twins.enclosed blank (by decide) (by decide)
    exact .braced blank (code.twins inners)
  | @unquoted blanks run after blank starts unquoted =>
    obtain ⟨run', rfl, runs⟩ := twins_unquoted blank unquoted.slash twins
    exact .unquoted blank (head?_twins runs starts) (unquoted.twins runs front)

/-- The text of a named attribute keeps its form when it is renamed. -/
theorem NamedText.twins (form : NamedText rest taken) (twins : Twins taken out)
    (front : Front rest rest') : NamedText rest' out := by
  cases form with
  | absent blank isWord stops noEquals =>
    obtain ⟨name', rfl, names⟩ := twins.append_left (no_colon_of_blank blank)
    exact .absent blank (isWord.twins names)
      (front.stops (show Steady isWordChar from rfl) stops)
      fun offset isEquals => noEquals offset ((front.equals_iff offset offset).mp isEquals)
  | assigned blank isWord blank' assigned =>
    obtain ⟨name', value', rfl, names, values⟩ := twins_assigned blank blank' twins
    exact .assigned blank (isWord.twins names) blank' (assigned.twins values front)

/-- Whether the attribute declares a script to be shared is not changed by renaming its name and its
value. -/
theorem ValueText.isShared_twins (form : ValueText rest value) (twins : Twins value out)
    (front : Front rest rest') (blank : ∀ c ∈ blanks, Text.isSeparator c = true)
    (isWord : IsWord name) (names : Twins name name')
    (blank' : ∀ c ∈ blanks', Text.isSeparator c = true) (offset offset' : Nat) :
    (namedAttribute ⟨offset', blanks ++ (name' ++ (blanks' ++ (['='] ++ (out ++ rest'))))⟩).value.any
        Attribute.isShared =
      (namedAttribute ⟨offset, blanks ++ (name ++ (blanks' ++ (['='] ++ (value ++ rest))))⟩).value.any
        Attribute.isShared := by
  have isWord' := isWord.twins names
  cases form with
  | @quoted blanks'' text quote blank'' isQuote quoted =>
    obtain ⟨notColon, notUnderscore⟩ := quote_ne isQuote
    obtain ⟨text', rfl, texts⟩ := twins_quoted blank'' isQuote twins
    have quoted' := quoted.twins notColon notUnderscore texts
    simp only [List.append_assoc]
    obtain ⟨-, span, parts, next, done, read⟩ :=
      namedAttribute_quoted blank isWord blank' blank'' isQuote quoted rest offset
    obtain ⟨-, span', parts', next', done', read'⟩ :=
      namedAttribute_quoted blank isWord' blank' blank'' isQuote quoted' rest' offset'
    rw [read, read']
    refine Attribute.isShared_twins names ?_
    rw [leadingText?_eq_iff done (by decide), leadingText?_eq_iff done' (by decide),
      quoted.takeWhile_append, quoted'.takeWhile_append]
    exact (texts.takeWhile (steady_isLiteralChar notColon notUnderscore)).eq_iff
      (by decide) (by decide)
  | @braced blanks'' inner blank'' code =>
    obtain ⟨inner', rfl, inners⟩ := twins.enclosed blank'' (by decide) (by decide)
    simp only [List.append_assoc]
    obtain ⟨-, span, embedded, read⟩ :=
      namedAttribute_braced blank isWord blank' blank'' code rest offset
    obtain ⟨-, span', embedded', read'⟩ :=
      namedAttribute_braced blank isWord' blank' blank'' (code.twins inners) rest' offset'
    rw [read, read']
    exact Attribute.isShared_twins names Iff.rfl
  | @unquoted blanks'' run after blank'' starts unquoted =>
    obtain ⟨run', rfl, runs⟩ := twins_unquoted blank'' unquoted.slash twins
    simp only [List.append_assoc]
    obtain ⟨-, span, place, read⟩ :=
      namedAttribute_unquoted blank isWord blank' blank'' starts unquoted offset
    obtain ⟨-, span', place', read'⟩ := namedAttribute_unquoted blank isWord' blank' blank''
      (head?_twins runs starts) (unquoted.twins runs front) offset'
    rw [read, read']
    refine Attribute.isShared_twins names ?_
    simp only [Value.leadingText?, Option.map_some, Option.some.injEq, ← String.toList_inj,
      String.toList_ofList]
    exact runs.eq_iff (by decide) (by decide)

/-- **A renamed attribute.** A named attribute that is read without faults is read without faults
after renaming, in front of any text that starts alike. -/
theorem namedAttribute_replace (form : NamedText rest taken) (twins : Twins taken out)
    (front : Front rest rest') (offset offset' : Nat) :
    (Cursor.token ⟨offset', out ++ rest'⟩).kind.IsRun ∧
      (namedAttribute ⟨offset', out ++ rest'⟩).Clean rest' ∧
        (namedAttribute ⟨offset', out ++ rest'⟩).value.any Attribute.isShared =
          (namedAttribute ⟨offset, taken ++ rest⟩).value.any Attribute.isShared := by
  obtain ⟨isRun, clean⟩ := (form.twins twins front).read offset'
  refine ⟨isRun, clean, ?_⟩
  cases form with
  | absent blank isWord stops noEquals =>
    obtain ⟨name', rfl, names⟩ := twins.append_left (no_colon_of_blank blank)
    have stops' := front.stops (show Steady isWordChar from rfl) stops
    have noEquals' (offset' : Nat) : (Cursor.token ⟨offset', rest'⟩).kind ≠ .equals := fun isEquals =>
      noEquals offset ((front.equals_iff offset offset').mp isEquals)
    rw [List.append_assoc, List.append_assoc]
    obtain ⟨-, span, read⟩ := namedAttribute_absent blank isWord stops noEquals offset
    obtain ⟨-, span', read'⟩ :=
      namedAttribute_absent blank (isWord.twins names) stops' noEquals' offset'
    rw [read, read']
    exact Attribute.isShared_twins names Iff.rfl
  | assigned blank isWord blank' assigned =>
    obtain ⟨name', value', rfl, names, values⟩ := twins_assigned blank blank' twins
    simp only [List.append_assoc]
    exact assigned.isShared_twins values front blank isWord names blank' offset offset'

end ClassHoist.Markup
