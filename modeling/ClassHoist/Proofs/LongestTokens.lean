import ClassHoist.Proofs.Lexing

/-! # The longest token

Whether a text is a token of some kind is told by the text alone: it is a symbol, a name, or a run of
characters without structure. Of the tokens that a text starts with the longest one is taken, and of
the kinds it can have the one with the highest priority; a character that starts no token is taken by
itself (`Begins.isTaken`). There is only one token that can be taken (`IsTaken.unique`), so it is the
same one if the text is cut off anywhere behind it (`Begins.cut`).
-/

namespace ClassHoist.Markup

namespace TokenKind

variable {kind other : TokenKind} {text more rest symbol : Text} {c : Char}

/-- The text is a token of the kind. -/
def IsText (kind : TokenKind) (text : Text) : Prop :=
  match kind with
  | .name => isName text = true
  | .word => IsWord text
  | kind => kind.symbol? = some text

/-- If a text is a token of several kinds, the one with the highest priority counts. -/
def priority : TokenKind → Nat
  | commentOpen => 12
  | blockOpen | blockEnd | blockNext | specialOpen => 11
  | tagOpen | closingOpen | tagEnd | selfClose | slash | equals | doubleQuote | singleQuote
  | braceOpen | braceClose => 10
  | name => 4
  | word => 1
  | endOfFile | invalid => 0

/-- Of all that the input starts with, the text is the longest token, and this is its kind. -/
structure IsLongest (kind : TokenKind) (text input : Text) : Prop where
  isFront : text <+: input
  isText : kind.IsText text
  longest : ∀ other more, more <+: input → TokenKind.IsText other more → more.length ≤ text.length
  highest : ∀ other, TokenKind.IsText other text → other = kind ∨ other.priority < kind.priority

/-- The token that is taken in front of the rest: the longest one, or a character that starts none. -/
def IsTaken (kind : TokenKind) (text rest : Text) : Prop :=
  kind.IsLongest text (text ++ rest) ∨
    kind = .invalid ∧ (∃ c, text = [c]) ∧
      ∀ other more, more <+: text ++ rest → ¬ TokenKind.IsText other more

/-- The text of a token is always the same, or it is a run. -/
theorem IsText.cases (isText : kind.IsText text) :
    kind.symbol? = some text ∨ kind.IsRun ∧ IsWord text := by
  cases kind
  case name => exact .inr ⟨.inl rfl, isWord_of_isName isText⟩
  case word => exact .inr ⟨.inr rfl, isText⟩
  all_goals exact .inl isText

/-- No token that is always the same starts with a character of a run. -/
theorem isWordChar_of_symbol (isSymbol : kind.symbol? = some (c :: text)) : isWordChar c = false := by
  cases kind
  case name | word | endOfFile | invalid => cases isSymbol
  all_goals
    obtain ⟨rfl, -⟩ := List.cons.inj (Option.some.inj isSymbol)
    rfl

/-- A symbol is no run of characters without structure. -/
theorem not_isWord_of_symbol (isSymbol : kind.symbol? = some text) : ¬ IsWord text := by
  rintro ⟨nonempty, all⟩
  obtain ⟨c, more, rfl⟩ := List.exists_cons_of_ne_nil nonempty
  have plain := all c List.mem_cons_self
  rw [isWordChar_of_symbol isSymbol] at plain
  cases plain

theorem symbol?_ne_nil : kind.symbol? ≠ some [] := by
  cases kind <;> simp [symbol?]

theorem IsText.ne_nil (isText : kind.IsText text) : text ≠ [] := by
  rcases isText.cases with isSymbol | ⟨-, isWord⟩
  · rintro rfl
    exact symbol?_ne_nil isSymbol
  · exact isWord.1

theorem IsTaken.ne_nil (taken : kind.IsTaken text rest) : text ≠ [] := by
  rcases taken with longest | ⟨-, ⟨c, rfl⟩, -⟩
  · exact longest.isText.ne_nil
  · exact List.cons_ne_nil c []

/-- A symbol alone is read as what it is. -/
theorem lexeme_symbol?_fst (isSymbol : kind.symbol? = some symbol) : (lexeme symbol).1 = kind := by
  cases kind
  case name | word | endOfFile | invalid => cases isSymbol
  all_goals
    obtain rfl := Option.some.inj isSymbol
    rfl

/-- In front of other text a symbol is read whole, perhaps as part of a longer one. -/
theorem length_le_of_symbol (isSymbol : kind.symbol? = some symbol) (tail : Text) :
    symbol.length ≤ (lexeme (symbol ++ tail)).2.1.length := by
  cases kind
  case name | word | endOfFile | invalid => cases isSymbol
  case tagOpen | slash | braceOpen =>
    obtain rfl := Option.some.inj isSymbol
    exact List.length_pos_iff.mpr (lexeme_ne_nil _ tail)
  all_goals
    obtain rfl := Option.some.inj isSymbol
    exact Nat.le_refl _

/-- What starts with a symbol is no character that starts no token. -/
theorem lexeme_ne_invalid_of_symbol (isSymbol : kind.symbol? = some symbol) (tail : Text) :
    (lexeme (symbol ++ tail)).1 ≠ .invalid := by
  cases kind
  case name | word | endOfFile | invalid => cases isSymbol
  case tagOpen | slash | braceOpen =>
    obtain rfl := Option.some.inj isSymbol
    rw [List.singleton_append]
    unfold lexeme
    split
    all_goals simp_all
  all_goals
    obtain rfl := Option.some.inj isSymbol
    simp [lexeme]

/-- In front of other text a run of characters without structure is read whole, perhaps as part of a
longer one. -/
theorem wordLexeme_append_of_isWord (isWord : IsWord more) (tail : Text) :
    (wordLexeme (more ++ tail)).1.IsRun ∧
      (wordLexeme (more ++ tail)).2.1 = more ++ tail.takeWhile isWordChar := by
  have taken : (more ++ tail).takeWhile isWordChar = more ++ tail.takeWhile isWordChar :=
    List.takeWhile_append_of_pos isWord.2
  obtain ⟨c, run, rfl⟩ := List.exists_cons_of_ne_nil isWord.1
  rw [List.cons_append] at taken
  unfold wordLexeme
  rw [List.cons_append, taken]
  refine ⟨?_, rfl⟩
  show IsRun (if isName (c :: (run ++ tail.takeWhile isWordChar)) then .name else .word)
  split
  · exact .inl rfl
  · exact .inr rfl

/-- A run at the start of a text is taken as far as it goes. -/
theorem lexeme_append_of_isWord (isWord : IsWord more) (tail : Text) :
    (lexeme (more ++ tail)).1.IsRun ∧
      (lexeme (more ++ tail)).2.1 = more ++ tail.takeWhile isWordChar := by
  rw [show lexeme (more ++ tail) = wordLexeme (more ++ tail) from ?_]
  · exact wordLexeme_append_of_isWord isWord tail
  · obtain ⟨c, run, rfl⟩ := List.exists_cons_of_ne_nil isWord.1
    exact lexeme_run (isWord.2 c List.mem_cons_self)

/-- What a text starts with is no longer than what is read from it, and then something is read. -/
theorem IsText.lexeme_longest (isText : kind.IsText more) (tail : Text) :
    more.length ≤ (lexeme (more ++ tail)).2.1.length ∧ (lexeme (more ++ tail)).1 ≠ .invalid := by
  rcases isText.cases with isSymbol | ⟨-, isWord⟩
  · exact ⟨length_le_of_symbol isSymbol tail, lexeme_ne_invalid_of_symbol isSymbol tail⟩
  · obtain ⟨isRun, same⟩ := lexeme_append_of_isWord isWord tail
    refine ⟨?_, ?_⟩
    · rw [same, List.length_append]
      exact Nat.le_add_right _ _
    · rcases isRun with same | same <;> rw [same] <;> decide

/-- Two tokens taken from one text are the same. -/
theorem IsTaken.unique {other : TokenKind} {more after : Text} (taken : kind.IsTaken text rest)
    (others : other.IsTaken more after) (same : text ++ rest = more ++ after) :
    kind = other ∧ text = more ∧ rest = after := by
  rcases taken with longest | ⟨isInvalid, ⟨c, rfl⟩, none⟩
  · rcases others with longest' | ⟨-, -, none'⟩
    · have isFront := longest.isFront
      have isFront' := longest'.isFront
      rw [← same] at isFront'
      rw [same] at isFront
      have length := Nat.le_antisymm (longest'.longest _ _ isFront longest.isText)
        (longest.longest _ _ isFront' longest'.isText)
      obtain ⟨rfl, rfl⟩ := List.append_inj same length
      refine ⟨?_, rfl, rfl⟩
      rcases longest.highest other longest'.isText with same | lower
      · exact same.symm
      · rcases longest'.highest kind longest.isText with same | lower'
        · exact same
        · exact absurd lower (Nat.lt_asymm lower')
    · exact absurd longest.isText (none' _ _ (same ▸ longest.isFront))
  · rcases others with longest' | ⟨isInvalid', ⟨d, rfl⟩, -⟩
    · exact absurd longest'.isText (none _ _ (same ▸ longest'.isFront))
    · obtain ⟨rfl, rfl⟩ := List.cons.inj same
      exact ⟨isInvalid.trans isInvalid'.symm, rfl, rfl⟩

end TokenKind

namespace Begins

variable {kind : TokenKind} {blanks text rest : Text}

/-- What a token begins with is a text that its kind describes. -/
theorem isText (begins : Begins kind blanks text rest) (goesOn : kind ≠ .endOfFile)
    (valid : kind ≠ .invalid) : kind.IsText text := by
  cases kind
  case endOfFile => exact absurd rfl goesOn
  case invalid => exact absurd rfl valid
  case name =>
    obtain ⟨-, -, isKind⟩ := begins.run (.inl rfl)
    split at isKind
    case isTrue isName => exact isName
    case isFalse => cases isKind
  case word => exact (begins.run (.inr rfl)).1
  all_goals exact congrArg some (begins.text_eq rfl).symm

/-- The kind of a token is the one with the highest priority. -/
theorem highest (begins : Begins kind blanks text rest) (isText : kind.IsText text)
    (other : TokenKind) (isOther : other.IsText text) :
    other = kind ∨ other.priority < kind.priority := by
  rcases isText.cases with isSymbol | ⟨isRun, isWord⟩
  · rcases isOther.cases with isSymbol' | ⟨-, isWord⟩
    · left
      rw [← TokenKind.lexeme_symbol?_fst isSymbol, TokenKind.lexeme_symbol?_fst isSymbol']
    · exact absurd isWord (TokenKind.not_isWord_of_symbol isSymbol)
  · rcases isOther.cases with isSymbol' | ⟨isRun', -⟩
    · exact absurd isWord (TokenKind.not_isWord_of_symbol isSymbol')
    · obtain ⟨-, -, isKind⟩ := begins.run isRun
      rcases isRun' with rfl | rfl
      · exact .inl (isKind.trans (if_pos isOther)).symm
      · rcases isRun with rfl | rfl
        · exact .inr (by decide)
        · exact .inl rfl

/-- An invalid token is a single character. -/
theorem invalid (begins : Begins .invalid blanks text rest) : ∃ c, text = [c] := by
  have read := begins.read
  unfold lexeme at read
  split at read
  case h_16 =>
    unfold wordLexeme at read
    split at read
    case h_1 =>
      split at read
      · cases congrArg Prod.fst read
      · exact ⟨_, (congrArg (·.2.1) read).symm⟩
    case h_2 =>
      have isKind := congrArg Prod.fst read
      simp only at isKind
      split at isKind <;> cases isKind
  all_goals cases congrArg Prod.fst read

/-- **The longest token is taken.** A character is taken by itself only where no token starts. -/
theorem isTaken (begins : Begins kind blanks text rest) (goesOn : kind ≠ .endOfFile) :
    kind.IsTaken text rest := by
  have bound (other : TokenKind) (more : Text) (isFront : more <+: text ++ rest)
      (isText : other.IsText more) : more.length ≤ text.length ∧ kind ≠ .invalid := by
    obtain ⟨tail, whole⟩ := isFront
    have longest := isText.lexeme_longest tail
    rwa [whole, begins.read] at longest
  by_cases valid : kind = .invalid
  · subst valid
    exact .inr ⟨rfl, begins.invalid, fun other more isFront isText =>
      (bound other more isFront isText).2 rfl⟩
  · have isText := begins.isText goesOn valid
    exact .inl ⟨List.prefix_append _ _, isText,
      fun other more isFront isText => (bound other more isFront isText).1, begins.highest isText⟩

end Begins

namespace TokenKind

/-- What is taken in front of a text is taken in front of each first part of it. -/
theorem IsTaken.cut {kind : TokenKind} {text later back : Text}
    (taken : kind.IsTaken text (later ++ back)) : kind.IsTaken text later := by
  have shorter {more : Text} (isFront : more <+: text ++ later) :
      more <+: text ++ (later ++ back) := by
    rw [← List.append_assoc]
    exact isFront.trans (List.prefix_append _ _)
  rcases taken with ⟨-, isText, longest, highest⟩ | ⟨isInvalid, single, none⟩
  · exact .inl ⟨List.prefix_append _ _, isText,
      fun other more isFront => longest other more (shorter isFront), highest⟩
  · exact .inr ⟨isInvalid, single, fun other more isFront => none other more (shorter isFront)⟩

end TokenKind

/-- A text that does not start with a separator starts with what is read from it. -/
theorem Begins.of_solid {c : Char} (solid : Text.isSeparator c = false) (rest : Text) :
    Begins (lexeme (c :: rest)).1 [] (lexeme (c :: rest)).2.1 (lexeme (c :: rest)).2.2 := by
  have split := lexeme_append (c :: rest)
  refine ⟨by simp, ?_, by rw [split]⟩
  intro d isHead
  have first := List.mem_head?_append_of_mem_head? (t := (lexeme (c :: rest)).2.2) isHead
  rw [split] at first
  obtain rfl := Option.some.inj first
  exact solid

/-- A text that is cut off behind its first token starts with the same one. -/
theorem Begins.cut {kind : TokenKind} {blanks text later back : Text}
    (begins : Begins kind blanks text (later ++ back)) (goesOn : kind ≠ .endOfFile) :
    Begins kind blanks text later := by
  have taken := (begins.isTaken goesOn).cut
  refine ⟨begins.blank, begins.solid, ?_⟩
  obtain ⟨c, more, rfl⟩ := List.exists_cons_of_ne_nil taken.ne_nil
  have split := lexeme_append (c :: more ++ later)
  have alone : Begins _ [] _ _ := .of_solid (begins.solid c rfl) (more ++ later)
  have others := alone.isTaken (lexeme_kind_ne_endOfFile c (more ++ later))
  obtain ⟨sameKind, sameText, sameRest⟩ := others.unique taken split
  exact Prod.ext sameKind (Prod.ext sameText sameRest)

end ClassHoist.Markup
