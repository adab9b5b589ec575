import ClassHoist.Span
import ClassHoist.Text.Blank

/-! # Tokens of markup

Only the structure of tags and braces is tokenised; text, script bodies, quoted values and
expressions are read as they stand. The longest token at a place wins, tokens are separated by
blanks, and the last token is the empty end of file.
-/

namespace ClassHoist.Markup

/-- The kinds of token. An opening brace with `#` opens a block, one with a colon continues it and
one with a slash ends it; with `@` it opens a special tag. A name is that of a tag, an attribute or
a directive, and a word is any other run of characters without structure. A character that starts no
token is invalid. -/
inductive TokenKind where
  | commentOpen
  | tagOpen
  | closingOpen
  | tagEnd
  | selfClose
  | slash
  | equals
  | doubleQuote
  | singleQuote
  | braceOpen
  | braceClose
  | blockOpen
  | blockEnd
  | blockNext
  | specialOpen
  | name
  | word
  | endOfFile
  | invalid
  deriving DecidableEq, Repr

/-- How a kind of token is called in messages. -/
def TokenKind.label : TokenKind → String
  | commentOpen => "'<!--'"
  | tagOpen => "'<'"
  | closingOpen => "'</'"
  | tagEnd => "'>'"
  | selfClose => "'/>'"
  | slash => "'/'"
  | equals => "'='"
  | doubleQuote => "'\"'"
  | singleQuote => "'''"
  | braceOpen => "'\x7b'"
  | braceClose => "'\x7d'"
  | blockOpen => "'\x7b#'"
  | blockEnd => "'\x7b/'"
  | blockNext => "'\x7b:'"
  | specialOpen => "'\x7b@'"
  | name => "name"
  | word => "text"
  | endOfFile => "end of file"
  | invalid => "invalid token"

/-- A token: its kind, where it stands, and its characters. -/
structure Token where
  kind : TokenKind
  span : Span
  text : Text
  deriving DecidableEq, Repr

/-- A character with which a name can start. -/
def isNameStart (c : Char) : Bool :=
  c.isAlpha || c == '_' || c == '$'

/-- A character that a name can hold. -/
def isNameChar (c : Char) : Bool :=
  c.isAlphanum || c == '_' || c == '$' || c == '-' || c == '.' || c == ':' || c == '|'

/-- A character without structure. -/
def isWordChar (c : Char) : Bool :=
  !(Text.isBlank c || c == '<' || c == '>' || c == '\x7b' || c == '\x7d' || c == '=' || c == '"'
    || c == '\'' || c == '/')

/-- The text is a name: it starts as one and goes on as one. -/
def isName : Text → Bool
  | [] => false
  | c :: rest => isNameStart c && rest.all isNameChar

/-- The run of characters without structure in front, as a name if all of it is one; a character
that starts no run is a token of its own. -/
def wordLexeme (input : Text) : TokenKind × Text × Text :=
  match input.takeWhile isWordChar with
  | [] =>
    match input with
    | [] => (.endOfFile, [], [])
    | c :: rest => (.invalid, [c], rest)
  | c :: run =>
    (if isName (c :: run) then .name else .word, c :: run, input.dropWhile isWordChar)

/-- The token at the front of a text: its kind, its characters and what follows. -/
def lexeme : Text → TokenKind × Text × Text
  | '<' :: '!' :: '-' :: '-' :: rest => (.commentOpen, ['<', '!', '-', '-'], rest)
  | '<' :: '/' :: rest => (.closingOpen, ['<', '/'], rest)
  | '<' :: rest => (.tagOpen, ['<'], rest)
  | '>' :: rest => (.tagEnd, ['>'], rest)
  | '/' :: '>' :: rest => (.selfClose, ['/', '>'], rest)
  | '/' :: rest => (.slash, ['/'], rest)
  | '=' :: rest => (.equals, ['='], rest)
  | '"' :: rest => (.doubleQuote, ['"'], rest)
  | '\'' :: rest => (.singleQuote, ['\''], rest)
  | '\x7b' :: '#' :: rest => (.blockOpen, ['\x7b', '#'], rest)
  | '\x7b' :: '/' :: rest => (.blockEnd, ['\x7b', '/'], rest)
  | '\x7b' :: ':' :: rest => (.blockNext, ['\x7b', ':'], rest)
  | '\x7b' :: '@' :: rest => (.specialOpen, ['\x7b', '@'], rest)
  | '\x7b' :: rest => (.braceOpen, ['\x7b'], rest)
  | '\x7d' :: rest => (.braceClose, ['\x7d'], rest)
  | input => wordLexeme input

theorem lexeme_nil : lexeme [] = (.endOfFile, [], []) := rfl

/-- A word and what follows it are the input. -/
theorem wordLexeme_append (input : Text) :
    (wordLexeme input).2.1 ++ (wordLexeme input).2.2 = input := by
  unfold wordLexeme
  split
  case h_1 => split <;> simp
  case h_2 run same =>
    show _ :: run ++ input.dropWhile isWordChar = input
    rw [← same, List.takeWhile_append_dropWhile]

/-- The characters of a token and what follows make up the text. -/
theorem lexeme_append (input : Text) :
    (lexeme input).2.1 ++ (lexeme input).2.2 = input := by
  unfold lexeme
  split
  case h_16 => exact wordLexeme_append _
  all_goals simp

/-- A word taken at a character is not empty. -/
theorem wordLexeme_ne_nil (c : Char) (rest : Text) : (wordLexeme (c :: rest)).2.1 ≠ [] := by
  unfold wordLexeme
  split <;> simp

/-- Every token before the end of file has characters. -/
theorem lexeme_ne_nil (c : Char) (rest : Text) : (lexeme (c :: rest)).2.1 ≠ [] := by
  unfold lexeme
  split
  case h_16 => exact wordLexeme_ne_nil c rest
  all_goals simp

/-- What follows a token is shorter than what starts with it. -/
theorem length_lexeme_lt (c : Char) (rest : Text) :
    (lexeme (c :: rest)).2.2.length < (c :: rest).length := by
  have joined := congrArg List.length (lexeme_append (c :: rest))
  have counted := List.length_pos_iff.mpr (lexeme_ne_nil c rest)
  rw [List.length_append] at joined
  omega

/-- The first token of a text that starts at `offset`, and what follows it. -/
def firstToken (offset : Nat) (input : Text) : Token × Text :=
  let start := offset + Text.bytes (input.takeWhile Text.isSeparator)
  let found := lexeme (input.dropWhile Text.isSeparator)
  (⟨found.1, ⟨start, start + found.2.1.bytes⟩, found.2.1⟩, found.2.2)

/-- The tokens of a text that starts at `offset`. -/
def tokensFrom (offset : Nat) (input : Text) : List Token :=
  match left : input.dropWhile Text.isSeparator with
  | [] => [(firstToken offset input).1]
  | c :: tail =>
    have : (firstToken offset input).2.length < input.length := by
      have shorter := length_lexeme_lt c tail
      have dropped := (List.dropWhile_suffix Text.isSeparator (l := input)).length_le
      rw [left] at dropped
      simpa only [firstToken, left] using Nat.lt_of_lt_of_le shorter dropped
    (firstToken offset input).1 ::
      tokensFrom (firstToken offset input).1.span.stop (firstToken offset input).2
termination_by input.length

/-- The tokens of a source. -/
def tokens (source : Text) : List Token := tokensFrom 0 source

end ClassHoist.Markup
