import ClassHoist.Proofs.ReachedPlaces
import ClassHoist.Proofs.Renamed

/-! # The first token of a text

What the first token of a text is, and where it ends, is settled by the text up to the end of the
token and at most one more character (`Begins`). So the token is the same one, or the renaming of
it, in front of any other text that starts alike (`Front`).
-/

namespace ClassHoist.Markup

/-- The text of a token that is always the same. -/
def TokenKind.symbol? : TokenKind → Option Text
  | commentOpen => some ['<', '!', '-', '-']
  | tagOpen => some ['<']
  | closingOpen => some ['<', '/']
  | tagEnd => some ['>']
  | selfClose => some ['/', '>']
  | slash => some ['/']
  | equals => some ['=']
  | doubleQuote => some ['"']
  | singleQuote => some ['\'']
  | braceOpen => some ['\x7b']
  | braceClose => some ['\x7d']
  | blockOpen => some ['\x7b', '#']
  | blockEnd => some ['\x7b', '/']
  | blockNext => some ['\x7b', ':']
  | specialOpen => some ['\x7b', '@']
  | name | word | endOfFile | invalid => none

/-- A token that is the same whatever follows it. -/
def TokenKind.isClosed : TokenKind → Bool
  | tagOpen | slash | braceOpen | name | word | endOfFile | invalid => false
  | _ => true

/-- A run of characters without structure. -/
def TokenKind.IsRun (kind : TokenKind) : Prop := kind = .name ∨ kind = .word

/-- The text starts with a token of the kind, behind blanks and in front of the rest. -/
structure Begins (kind : TokenKind) (blanks text rest : Text) : Prop where
  blank : ∀ c ∈ blanks, Text.isSeparator c = true
  solid : ∀ c ∈ text.head?, Text.isSeparator c = false
  read : lexeme (text ++ rest) = (kind, text, rest)

variable {kind : TokenKind} {blanks text rest other out : Text} {c d : Char}

/-- White space in front of a character that is none is dropped, and nothing else. -/
theorem dropWhile_blanks {test : Char → Bool} (all : ∀ c ∈ blanks, test c = true)
    (stops : ∀ c ∈ rest.head?, test c = false) : (blanks ++ rest).dropWhile test = rest := by
  rw [List.dropWhile_append_of_pos all]
  cases rest with
  | nil => rfl
  | cons c rest => exact List.dropWhile_cons_of_neg (by rw [stops c rfl]; exact Bool.false_ne_true)

/-- White space in front of a character that is none is taken, and nothing else. -/
theorem takeWhile_blanks {test : Char → Bool} (all : ∀ c ∈ blanks, test c = true)
    (stops : ∀ c ∈ rest.head?, test c = false) : (blanks ++ rest).takeWhile test = blanks := by
  rw [List.takeWhile_append_of_pos all]
  cases rest with
  | nil => exact List.append_nil _
  | cons c rest =>
    rw [List.takeWhile_cons_of_neg (by rw [stops c rfl]; exact Bool.false_ne_true)]
    exact List.append_nil _

/-- What is left does not start with a character that would have been dropped. -/
theorem head?_dropWhile {test : Char → Bool} (text : Text) :
    ∀ c ∈ (text.dropWhile test).head?, test c = false := by
  intro c isHead
  have stops := List.head?_dropWhile_not test text
  rw [isHead] at stops
  exact stops

namespace Begins

/-- No token starts with white space. -/
theorem head?_append (begins : Begins kind blanks text rest) :
    ∀ c ∈ (text ++ rest).head?, Text.isSeparator c = false := by
  intro c isHead
  cases text with
  | cons d text => exact begins.solid c isHead
  | nil =>
    cases rest with
    | nil => cases isHead
    | cons d rest => exact absurd (congrArg (·.2.1) begins.read) (lexeme_ne_nil d rest)

/-- The next token is the one that the text starts with, at its place. -/
theorem token (begins : Begins kind blanks text rest) (offset : Nat) :
    Cursor.token ⟨offset, blanks ++ (text ++ rest)⟩ =
      ⟨kind, ⟨offset + Text.bytes blanks, offset + Text.bytes blanks + Text.bytes text⟩, text⟩ := by
  have kept := dropWhile_blanks begins.blank begins.head?_append
  have dropped := takeWhile_blanks begins.blank begins.head?_append
  simp only [Cursor.token, firstToken, kept, dropped, begins.read]

/-- Stepping over the token leads behind its text. -/
theorem bump (begins : Begins kind blanks text rest) (offset : Nat) :
    Cursor.bump ⟨offset, blanks ++ (text ++ rest)⟩ =
      ⟨offset + Text.bytes blanks + Text.bytes text, rest⟩ := by
  have kept := dropWhile_blanks begins.blank begins.head?_append
  have dropped := takeWhile_blanks begins.blank begins.head?_append
  simp only [Cursor.bump, firstToken, kept, dropped, begins.read]

end Begins

/-- Every text starts with its first token. -/
theorem exists_begins (input : Text) : ∃ kind blanks text rest,
    input = blanks ++ (text ++ rest) ∧ Begins kind blanks text rest := by
  have split := lexeme_append (input.dropWhile Text.isSeparator)
  refine ⟨(lexeme (input.dropWhile Text.isSeparator)).1, input.takeWhile Text.isSeparator,
    (lexeme (input.dropWhile Text.isSeparator)).2.1,
    (lexeme (input.dropWhile Text.isSeparator)).2.2, ?_,
    List.all_eq_true.mp List.all_takeWhile, ?_, ?_⟩
  · rw [split, List.takeWhile_append_dropWhile]
  · intro c isHead
    refine head?_dropWhile input c ?_
    rw [← split]
    exact List.mem_head?_append_of_mem_head? isHead
  · rw [split]

/-- Where no symbol begins, there is a name, a word, an invalid character or the end. -/
theorem wordLexeme_kind (text : Text) :
    (wordLexeme text).1 = .name ∨ (wordLexeme text).1 = .word ∨ (wordLexeme text).1 = .invalid ∨
      (wordLexeme text).1 = .endOfFile := by
  unfold wordLexeme
  split
  · split
    · exact .inr (.inr (.inr rfl))
    · exact .inr (.inr (.inl rfl))
  · simp only
    split
    · exact .inl rfl
    · exact .inr (.inl rfl)

/-- A symbol has its own text. -/
theorem lexeme_symbol {symbol : Text} (read : lexeme other = (kind, text, rest))
    (isSymbol : kind.symbol? = some symbol) : text = symbol := by
  unfold lexeme at read
  split at read
  case h_16 =>
    have runs := wordLexeme_kind other
    rw [read] at runs
    rcases runs with same | same | same | same
    all_goals
      simp only at same
      subst same
      cases isSymbol
  all_goals
    obtain ⟨rfl, same⟩ := Prod.mk.inj read
    obtain ⟨rfl, -⟩ := Prod.mk.inj same
    exact Option.some.inj isSymbol

/-- A character without structure starts a run of them. -/
theorem lexeme_run (isRun : isWordChar c = true) : lexeme (c :: rest) = wordLexeme (c :: rest) := by
  unfold lexeme
  split
  case h_16 => rfl
  all_goals
    next same =>
      obtain ⟨rfl, -⟩ := List.cons.inj same
      cases isRun

/-- Only a run of characters without structure is read as such a run. -/
theorem wordLexeme_of_lexeme (read : lexeme other = (kind, text, rest)) (isRun : kind.IsRun) :
    wordLexeme other = (kind, text, rest) := by
  unfold lexeme at read
  split at read
  case h_16 => exact read
  all_goals
    obtain ⟨rfl, -⟩ := Prod.mk.inj read
    rcases isRun with same | same <;> cases same

/-- A character that passes a test is no character that fails it. -/
theorem beq_eq_false_of_test {test : Char → Bool} {c : Char} (passes : test c = true) (d : Char)
    (fails : test d = false) : (c == d) = false := by
  rw [beq_eq_false_iff_ne]
  rintro rfl
  rw [passes] at fails
  cases fails

/-- A character of a name has no structure. -/
theorem isWordChar_of_isNameChar {c : Char} (isChar : isNameChar c = true) :
    isWordChar c = true := by
  have other := beq_eq_false_of_test isChar
  have range : 0x24 ≤ c.toNat ∧ c.toNat ≤ 0x7c := by
    change ((((((((decide ('A'.val ≤ c.val ∧ c.val ≤ 'Z'.val) ||
      decide ('a'.val ≤ c.val) && decide (c.val ≤ 'z'.val)) ||
        decide ('0'.val ≤ c.val) && decide (c.val ≤ '9'.val)) || c == '_') || c == '$') ||
          c == '-') || c == '.') || c == ':') || c == '|') = true at isChar
    simp only [Bool.or_eq_true, Bool.and_eq_true, decide_eq_true_eq, beq_iff_eq,
      UInt32.le_iff_toNat_le] at isChar
    rcases isChar with (((((((between | between) | between) | rfl) | rfl) | rfl) | rfl) | rfl) | rfl
    case inl.inl.inl.inl.inl.inl.inl.inl | inl.inl.inl.inl.inl.inl.inl.inr |
        inl.inl.inl.inl.inl.inl.inr =>
      exact ⟨Nat.le_trans (by decide) between.1, Nat.le_trans between.2 (by decide)⟩
    all_goals decide
  have notBlank : Text.isBlank c = false := by
    obtain ⟨low, high⟩ := range
    simp only [Text.isBlank, Bool.or_eq_false_iff, Bool.and_eq_false_iff, decide_eq_false_iff_not,
      beq_eq_false_iff_ne]
    omega
  simp only [isWordChar, notBlank, other '<' rfl, other '>' rfl, other '\x7b' rfl,
    other '\x7d' rfl, other '=' rfl, other '"' rfl, other '\'' rfl, other '/' rfl, Bool.or_false,
    Bool.not_false]

/-- A name has only characters that a name can have. -/
theorem isNameChar_of_isName {name : Text} (named : isName name = true) :
    ∀ c ∈ name, isNameChar c = true := by
  cases name with
  | nil => cases named
  | cons first letters =>
    obtain ⟨starts, all⟩ := Bool.and_eq_true_iff.mp named
    have startsAsChar : isNameChar first = true := by
      simp only [isNameStart, Bool.or_eq_true] at starts
      rcases starts with (letter | low) | dollar
      · simp only [isNameChar, Char.isAlphanum, letter, Bool.true_or]
      · rw [beq_iff_eq.mp low]
        rfl
      · rw [beq_iff_eq.mp dollar]
        rfl
    intro c member
    rcases List.mem_cons.mp member with rfl | isLetter
    · exact startsAsChar
    · exact List.all_eq_true.mp all c isLetter

/-- A name is a run of characters without structure. -/
theorem isWordChar_of_isName {name : Text} (named : isName name = true) :
    ∀ c ∈ name, isWordChar c = true :=
  fun c member => isWordChar_of_isNameChar (isNameChar_of_isName named c member)

/-- A run of characters without structure, at least one. -/
def IsWord (text : Text) : Prop := text ≠ [] ∧ ∀ c ∈ text, isWordChar c = true

/-- A name is a run. -/
theorem isWord_of_isName (named : isName text = true) : IsWord text := by
  refine ⟨?_, isWordChar_of_isName named⟩
  rintro rfl
  cases named

/-- A run is a run after renaming. -/
theorem IsWord.twins (isWord : IsWord text) (twins : Twins text out) : IsWord out :=
  ⟨fun none => isWord.1 (twins.eq_nil_iff.mp none), twins.forall_mem fun c member _ twin =>
    (twin.test_eq (show Steady isWordChar from rfl)).trans (isWord.2 c member)⟩

/-- A run ends at the first character that is not one of a run. -/
theorem wordLexeme_run (isWord : IsWord text)
    (stops : ∀ c ∈ rest.head?, isWordChar c = false) :
    wordLexeme (text ++ rest) = (if isName text then .name else .word, text, rest) := by
  have taken := takeWhile_blanks isWord.2 stops
  have dropped := dropWhile_blanks isWord.2 stops
  cases text with
  | nil => exact absurd rfl isWord.1
  | cons c text =>
    unfold wordLexeme
    rw [taken]
    simp only [dropped]

/-- A run of characters without structure holds no white space. -/
theorem isBlank_of_isWordChar (isRun : isWordChar c = true) : Text.isBlank c = false := by
  by_contra blank
  rw [Bool.not_eq_false] at blank
  simp only [isWordChar, blank, Bool.true_or, Bool.not_true, Bool.false_eq_true] at isRun

/-- A character of a run is no white space. -/
theorem isSeparator_of_isWordChar (isRun : isWordChar c = true) : Text.isSeparator c = false := by
  by_contra separator
  rw [Bool.not_eq_false] at separator
  have blank := Text.isBlank_of_isSeparator separator
  rw [isBlank_of_isWordChar isRun] at blank
  cases blank

/-- A run in front of a character that ends it is the next token. -/
theorem begins_of_isWord (blank : ∀ c ∈ blanks, Text.isSeparator c = true) (isWord : IsWord text)
    (stops : ∀ c ∈ rest.head?, isWordChar c = false) :
    Begins (if isName text then .name else .word) blanks text rest := by
  refine ⟨blank, ?_, ?_⟩
  · intro c isHead
    exact isSeparator_of_isWordChar (isWord.2 c (List.mem_of_mem_head? isHead))
  · have split : lexeme (text ++ rest) = wordLexeme (text ++ rest) := by
      cases text with
      | nil => exact absurd rfl isWord.1
      | cons c text => exact lexeme_run (isWord.2 c List.mem_cons_self)
    rw [split, wordLexeme_run isWord stops]

namespace Begins

/-- A token that is always the same has that text. -/
theorem text_eq (begins : Begins kind blanks text rest) {symbol : Text}
    (isSymbol : kind.symbol? = some symbol) : text = symbol :=
  lexeme_symbol begins.read isSymbol

/-- Some tokens are the same whatever follows them. -/
theorem replace (begins : Begins kind blanks text rest) (closed : kind.isClosed = true)
    (other : Text) : Begins kind blanks text other := by
  refine ⟨begins.blank, begins.solid, ?_⟩
  cases kind
  case tagOpen | slash | braceOpen | name | word | endOfFile | invalid => cases closed
  all_goals
    rw [begins.text_eq rfl]
    rfl

/-- A run of characters without structure ends before any other character. -/
theorem run (begins : Begins kind blanks text rest) (isRun : kind.IsRun) :
    IsWord text ∧ (∀ c ∈ rest.head?, isWordChar c = false) ∧
      kind = if isName text then .name else .word := by
  have read := wordLexeme_of_lexeme begins.read isRun
  unfold wordLexeme at read
  split at read
  case h_1 =>
    split at read
    all_goals
      simp only [Prod.mk.injEq] at read
      rcases isRun with isName | isWord
      · cases isName ▸ read.1
      · cases isWord ▸ read.1
  case h_2 c run taken =>
    simp only [Prod.mk.injEq] at read
    obtain ⟨isKind, rfl, rest'⟩ := read
    refine ⟨⟨List.cons_ne_nil _ _, ?_⟩, ?_, isKind.symm⟩
    · rw [← taken]
      exact List.all_eq_true.mp List.all_takeWhile
    · rw [← rest']
      exact head?_dropWhile _

end Begins

/-- An opening brace is the next token if no sign follows it. -/
theorem begins_braceOpen (blank : ∀ c ∈ blanks, Text.isSeparator c = true)
    (plain : ∀ c ∈ rest.head?, c ≠ '#' ∧ c ≠ '/' ∧ c ≠ ':' ∧ c ≠ '@') :
    Begins .braceOpen blanks ['\x7b'] rest := by
  refine ⟨blank, by intro c isHead; cases isHead; rfl, ?_⟩
  cases rest with
  | nil => rfl
  | cons c rest =>
    obtain ⟨notHash, notSlash, notColon, notAt⟩ := plain c rfl
    rw [List.singleton_append]
    unfold lexeme
    split
    case h_14 same =>
      obtain ⟨-, rfl⟩ := List.cons.inj same
      rfl
    case h_10 same => exact absurd (List.cons.inj (List.cons.inj same).2).1 notHash
    case h_11 same => exact absurd (List.cons.inj (List.cons.inj same).2).1 notSlash
    case h_12 same => exact absurd (List.cons.inj (List.cons.inj same).2).1 notColon
    case h_13 same => exact absurd (List.cons.inj (List.cons.inj same).2).1 notAt
    case h_16 =>
      next other _ => exact absurd rfl (other _)
    all_goals
      next same => cases (List.cons.inj same).1

/-- Behind an opening brace that is the next token no sign follows. -/
theorem Begins.braceOpen_plain (begins : Begins .braceOpen blanks text rest) :
    ∀ c ∈ rest.head?, c ≠ '#' ∧ c ≠ '/' ∧ c ≠ ':' ∧ c ≠ '@' := by
  intro c isHead
  obtain rfl := begins.text_eq rfl
  have read := begins.read
  cases rest with
  | nil => cases isHead
  | cons d rest =>
    obtain rfl := Option.some.inj isHead
    refine ⟨?_, ?_, ?_, ?_⟩
    all_goals
      rintro rfl
      cases congrArg Prod.fst read

/-- A character at which every token ends or which is one. -/
def isFence (c : Char) : Bool := c == '>' || c == '=' || c == '"' || c == '\''

/-- Two texts start alike, up to renaming, as far as some closing bracket, equals sign or quote. -/
def Front (rest other : Text) : Prop :=
  ∃ front more front' more', rest = front ++ more ∧ other = front' ++ more' ∧
    Twins front front' ∧ ∃ c ∈ front, isFence c = true

namespace Front

/-- A text starts like itself, if a closing bracket is to come. -/
theorem refl (closes : '>' ∈ rest) : Front rest rest :=
  ⟨rest, [], rest, [], (List.append_nil _).symm, (List.append_nil _).symm, .refl rest, _, closes, rfl⟩

/-- Texts that start alike have first characters that are the same up to renaming, and start alike
behind them unless these end every token. -/
theorem cons (front : Front rest other) :
    ∃ c more d more', rest = c :: more ∧ other = d :: more' ∧ Twin c d ∧
      (isFence c = false → Front more more') := by
  obtain ⟨lead, more, lead', more', rfl, rfl, twins, e, member, fence⟩ := front
  cases twins with
  | nil => cases member
  | @cons c d lead lead' twin twins =>
    refine ⟨c, lead ++ more, d, lead' ++ more', rfl, rfl, twin, fun plain => ?_⟩
    rcases List.mem_cons.mp member with rfl | later
    · rw [fence] at plain
      cases plain
    · exact ⟨lead, more, lead', more', rfl, rfl, twins, e, later, fence⟩

/-- Texts that start alike do so with more in front that is the same up to renaming. -/
theorem append (twins : Twins text out) (front : Front rest other) :
    Front (text ++ rest) (out ++ other) := by
  obtain ⟨lead, more, lead', more', rfl, rfl, leads, c, member, fence⟩ := front
  exact ⟨text ++ lead, more, out ++ lead', more', (List.append_assoc _ _ _).symm,
    (List.append_assoc _ _ _).symm, List.rel_append twins leads, c,
    List.mem_append_right _ member, fence⟩

/-- A test that renaming does not change stops at both texts or at neither. -/
theorem stops {test : Char → Bool} (steady : Steady test) (front : Front rest other)
    (ends : ∀ c ∈ rest.head?, test c = false) : ∀ c ∈ other.head?, test c = false := by
  obtain ⟨c, more, d, more', rfl, rfl, twin, -⟩ := front.cons
  intro e isHead
  obtain rfl := Option.some.inj isHead
  exact (twin.test_eq steady).trans (ends c rfl)

/-- Texts that start alike do so without the white space in front. -/
theorem dropBlanks (front : Front rest other) :
    Front (rest.dropWhile Text.isSeparator) (other.dropWhile Text.isSeparator) := by
  induction rest generalizing other with
  | nil =>
    obtain ⟨c, more, d, more', same, -⟩ := front.cons
    cases same
  | cons c rest ih =>
    obtain ⟨c, more, d, more', same, rfl, twin, later⟩ := front.cons
    obtain ⟨rfl, rfl⟩ := List.cons.inj same
    rw [List.dropWhile_cons, List.dropWhile_cons,
      twin.test_eq (show Steady Text.isSeparator from rfl)]
    split
    case isFalse => exact front
    case isTrue blank =>
      refine ih (later ?_)
      by_contra fence
      simp only [isFence, Bool.not_eq_false, Bool.or_eq_true, beq_iff_eq] at fence
      rcases fence with ((rfl | rfl) | rfl) | rfl <;> cases blank

/-- Whether an equals sign comes next is settled by the front. -/
theorem equals_iff (front : Front rest other) (offset offset' : Nat) :
    (Cursor.token ⟨offset', other⟩).kind = .equals ↔ (Cursor.token ⟨offset, rest⟩).kind = .equals := by
  have isEquals (text : Text) : (lexeme text).1 = .equals ↔ text.head? = some '=' := by
    constructor
    · intro read
      have split := lexeme_append text
      rw [lexeme_symbol (show lexeme text = (.equals, _, _) from Prod.ext read rfl) rfl] at split
      rw [← split]
      rfl
    · intro isHead
      cases text with
      | nil => cases isHead
      | cons c text =>
        obtain rfl := Option.some.inj isHead
        rfl
  obtain ⟨c, more, d, more', same, same', twin, -⟩ := front.dropBlanks.cons
  show (lexeme (other.dropWhile Text.isSeparator)).1 = .equals ↔
    (lexeme (rest.dropWhile Text.isSeparator)).1 = .equals
  rw [isEquals, isEquals, same, same', List.head?_cons, List.head?_cons, Option.some.injEq,
    Option.some.injEq]
  exact twin.eq_iff (by decide) (by decide)

end Front

end ClassHoist.Markup
