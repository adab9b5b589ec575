import ClassHoist.Json.Magnitude
import ClassHoist.Text.Pattern

/-! # Tokens of JSON text

A text is cut into tokens from left to right. Where no token can be read the last token says why,
so that a reader of the tokens meets the first problem of the text first.
-/

namespace ClassHoist.Json

/-- Why a JSON text is of no use: it ends too early, it breaks the grammar of JSON or holds a number
whose value lies beyond the doubles, or a value or a key is not one of those expected. -/
inductive Problem where
  | ended
  | malformed
  | unsuitable
  deriving DecidableEq, Repr

/-- A piece of JSON text. A string comes without its quotes and escapes, and the value of a number
is dropped. What starts like a string and is none is broken, and so is anything else that is no
token. -/
inductive Token where
  | arrayStart
  | arrayEnd
  | objectStart
  | objectEnd
  | comma
  | colon
  | null
  | bool (value : Bool)
  | number
  | string (value : Text)
  | brokenString (problem : Problem)
  | broken (problem : Problem)
  deriving DecidableEq, Repr

/-- The characters that separate tokens. -/
def isBlank (c : Char) : Bool :=
  c == ' ' || c == '\n' || c == '\t' || c == '\r'

/-- What follows `expected`. -/
def wordRest : (expected text : Text) → Except Problem Text
  | [], text => .ok text
  | _ :: _, [] => .error .ended
  | a :: expected, b :: text => if a = b then wordRest expected text else .error .malformed

/-- The digits at the front, of which there has to be one, and what follows them. -/
def digits (text : Text) : Except Problem (Text × Text) :=
  match text with
  | [] => .error .ended
  | c :: rest =>
    if c.isDigit then .ok (c :: rest.takeWhile Char.isDigit, rest.dropWhile Char.isDigit)
    else .error .malformed

/-- The part of a number after the point, if there is one, and what follows it. -/
def fraction : Text → Except Problem (Text × Text)
  | '.' :: rest => digits rest
  | rest => .ok ([], rest)

/-- The digits of an exponent after its sign as a number, and what follows them. -/
def exponentDigits (sign : Int) (text : Text) : Except Problem (Int × Text) :=
  match digits text with
  | .error problem => .error problem
  | .ok (found, rest) => .ok (sign * digitsValue found, rest)

/-- The exponent of a number, zero if it has none, and what follows it. -/
def exponent : Text → Except Problem (Int × Text)
  | [] => .ok (0, [])
  | c :: rest =>
    if c == 'e' || c == 'E' then
      match rest with
      | '-' :: rest => exponentDigits (-1) rest
      | '+' :: rest => exponentDigits 1 rest
      | rest => exponentDigits 1 rest
    else .ok (0, c :: rest)

/-- What follows a number. -/
def numberRest (text : Text) : Except Problem Text :=
  match digits ((Text.dropLead? ['-'] text).getD text) with
  | .error problem => .error problem
  | .ok (whole, rest) =>
    if whole.head? == some '0' && 1 < whole.length then .error .malformed
    else
      match fraction rest with
      | .error problem => .error problem
      | .ok (part, rest) =>
        match exponent rest with
        | .error problem => .error problem
        | .ok (power, rest) =>
          if (Magnitude.ofDigits whole part power).isTooLarge then .error .malformed
          else .ok rest

/-- The value of a hexadecimal digit. -/
def hexValue? (c : Char) : Option Nat :=
  if c.isDigit then some (c.toNat - '0'.toNat)
  else if 'a' ≤ c ∧ c ≤ 'f' then some (c.toNat - 'a'.toNat + 10)
  else if 'A' ≤ c ∧ c ≤ 'F' then some (c.toNat - 'A'.toNat + 10)
  else none

/-- The value of four hexadecimal digits, and what follows them. A text of fewer than four bytes
is too short for them. -/
def hexUnit (text : Text) : Except Problem (Nat × Text) :=
  if text.bytes < 4 then .error .ended
  else
    match text with
    | a :: b :: c :: d :: rest =>
      match hexValue? a, hexValue? b, hexValue? c, hexValue? d with
      | some a, some b, some c, some d => .ok (((a * 16 + b) * 16 + c) * 16 + d, rest)
      | _, _, _, _ => .error .malformed
    | _ => .error .malformed

/-- A code unit that stands for the second half of a character. -/
def isTrailing (unit : Nat) : Bool := 0xDC00 ≤ unit && unit ≤ 0xDFFF

/-- A code unit that stands for the first half of a character. -/
def isLeading (unit : Nat) : Bool := 0xD800 ≤ unit && unit ≤ 0xDBFF

/-- The character of a leading and a trailing code unit. -/
def pairedChar (leading trailing : Nat) : Char :=
  Char.ofNat (0x10000 + (leading - 0xD800) * 0x400 + (trailing - 0xDC00))

/-- The second half of a character, written as an escape of its own. -/
def trailingUnit : Text → Except Problem (Nat × Text)
  | [] => .error .ended
  | ['\\'] => .error .ended
  | '\\' :: 'u' :: rest =>
    match hexUnit rest with
    | .error problem => .error problem
    | .ok (unit, rest) => if isTrailing unit then .ok (unit, rest) else .error .malformed
  | _ => .error .malformed

/-- The character given by its code units in hexadecimal, and what follows them. -/
def unicodeEscape (text : Text) : Except Problem (Char × Text) :=
  match hexUnit text with
  | .error problem => .error problem
  | .ok (unit, rest) =>
    if isTrailing unit then .error .malformed
    else if isLeading unit then
      match trailingUnit rest with
      | .error problem => .error problem
      | .ok (trailing, rest) => .ok (pairedChar unit trailing, rest)
    else .ok (Char.ofNat unit, rest)

/-- The character that a letter after a backslash stands for. -/
def namedEscape? : Char → Option Char
  | '"' => some '"'
  | '\\' => some '\\'
  | '/' => some '/'
  | 'b' => some '\x08'
  | 'f' => some '\x0c'
  | 'n' => some '\n'
  | 'r' => some '\r'
  | 't' => some '\t'
  | _ => none

/-- The character that is escaped by what follows a backslash, and what follows it. -/
def escapeRest : Text → Except Problem (Char × Text)
  | [] => .error .ended
  | c :: rest =>
    if c = 'u' then unicodeEscape rest
    else
      match namedEscape? c with
      | some value => .ok (value, rest)
      | none => .error .malformed

/-- The four digits of an escape leave no more text than there was. -/
theorem hexUnit_length {text rest : Text} {unit : Nat} (found : hexUnit text = .ok (unit, rest)) :
    rest.length ≤ text.length := by
  unfold hexUnit at found
  repeat' split at found
  all_goals simp_all
  omega

/-- The second half of a surrogate pair leaves no more text than there was. -/
theorem trailingUnit_length {text rest : Text} {unit : Nat}
    (found : trailingUnit text = .ok (unit, rest)) : rest.length ≤ text.length := by
  unfold trailingUnit at found
  split at found
  case h_3 inner =>
    split at found
    case h_1 => simp at found
    case h_2 unit rest read =>
      have := hexUnit_length read
      split at found <;> simp_all
      omega
  all_goals simp at found

/-- A Unicode escape leaves no more text than there was. -/
theorem unicodeEscape_length {text rest : Text} {c : Char}
    (found : unicodeEscape text = .ok (c, rest)) : rest.length ≤ text.length := by
  unfold unicodeEscape at found
  split at found
  case h_1 => simp at found
  case h_2 unit after read =>
    have := hexUnit_length read
    split at found
    case isTrue => simp at found
    case isFalse =>
      split at found
      case isTrue =>
        split at found
        case h_1 => simp at found
        case h_2 trailing last second =>
          have := trailingUnit_length second
          simp_all
          omega
      case isFalse => simp_all

/-- An escape leaves no more text than there was. -/
theorem escapeRest_length {text rest : Text} {c : Char} (found : escapeRest text = .ok (c, rest)) :
    rest.length ≤ text.length := by
  cases text with
  | nil => simp [escapeRest] at found
  | cons d text =>
    simp only [escapeRest] at found
    split at found
    case isTrue =>
      have := unicodeEscape_length found
      simp
      omega
    case isFalse =>
      split at found <;> simp_all

/-- The string whose opening quote stands before the text, and what follows its closing quote. -/
def stringRest (text : Text) : Except Problem (Text × Text) :=
  match text with
  | [] => .error .ended
  | c :: rest =>
    if c = '"' then .ok ([], rest)
    else if c = '\\' then
      match found : escapeRest rest with
      | .error problem => .error problem
      | .ok (value, after) =>
        have : after.length < rest.length + 1 := Nat.lt_succ_of_le (escapeRest_length found)
        (stringRest after).map fun (more, last) => (value :: more, last)
    else if c.toNat < 0x20 then .error .malformed
    else (stringRest rest).map fun (more, last) => (c :: more, last)
termination_by text.length

/-- A token and what follows it, unless it is broken; nothing follows a broken token. -/
def Token.orBroken (token : Token) : Except Problem Text → Token × Text
  | .ok after => (token, after)
  | .error problem => (.broken problem, [])

/-- The token that starts with a character, and what follows it. -/
def Token.read (c : Char) (rest : Text) : Token × Text :=
  match c with
  | '[' => (.arrayStart, rest)
  | ']' => (.arrayEnd, rest)
  | '\x7b' => (.objectStart, rest)
  | '\x7d' => (.objectEnd, rest)
  | ',' => (.comma, rest)
  | ':' => (.colon, rest)
  | 'n' => Token.null.orBroken (wordRest ['u', 'l', 'l'] rest)
  | 't' => (Token.bool true).orBroken (wordRest ['r', 'u', 'e'] rest)
  | 'f' => (Token.bool false).orBroken (wordRest ['a', 'l', 's', 'e'] rest)
  | '"' =>
    match stringRest rest with
    | .ok (value, after) => (.string value, after)
    | .error problem => (.brokenString problem, [])
  | c =>
    if c == '-' || c.isDigit then Token.number.orBroken (numberRest (c :: rest))
    else (.broken .malformed, [])

/-- A literal word leaves no more text than there was. -/
theorem wordRest_length {expected text rest : Text} (found : wordRest expected text = .ok rest) :
    rest.length ≤ text.length := by
  induction expected generalizing text with
  | nil => simp_all [wordRest]
  | cons a expected ih =>
    cases text with
    | nil => simp [wordRest] at found
    | cons b text =>
      simp only [wordRest] at found
      split at found
      · have := ih found
        simp
        omega
      · simp at found

/-- A run of digits takes at least one character. -/
theorem digits_length {text found rest : Text} (read : digits text = .ok (found, rest)) :
    rest.length < text.length := by
  cases text with
  | nil => simp [digits] at read
  | cons c text =>
    simp only [digits] at read
    split at read
    · simp only [Except.ok.injEq, Prod.mk.injEq] at read
      have := (List.dropWhile_suffix Char.isDigit (l := text)).length_le
      simp only [← read.2, List.length_cons]
      omega
    · simp at read

/-- A fraction, present or not, leaves no more text than there was. -/
theorem fraction_length {text found rest : Text} (read : fraction text = .ok (found, rest)) :
    rest.length ≤ text.length := by
  unfold fraction at read
  split at read
  · have := digits_length read
    simp
    omega
  · simp_all

/-- The digits of an exponent take at least one character. -/
theorem exponentDigits_length {text rest : Text} {sign power : Int}
    (read : exponentDigits sign text = .ok (power, rest)) : rest.length < text.length := by
  unfold exponentDigits at read
  split at read
  case h_1 => simp at read
  case h_2 found after first =>
    have := digits_length first
    simp_all

/-- An exponent, present or not, leaves no more text than there was. -/
theorem exponent_length {text rest : Text} {power : Int}
    (read : exponent text = .ok (power, rest)) :
    rest.length ≤ text.length := by
  cases text with
  | nil => simp_all [exponent]
  | cons c text =>
    simp only [exponent] at read
    split at read
    case isTrue =>
      split at read
      all_goals
        have := exponentDigits_length read
        simp
        omega
    case isFalse => simp_all

/-- A number takes at least one character. -/
theorem numberRest_length {text rest : Text} (read : numberRest text = .ok rest) :
    rest.length < text.length := by
  have unsigned : ((Text.dropLead? ['-'] text).getD text).length ≤ text.length := by
    cases cut : Text.dropLead? ['-'] text with
    | none => simp
    | some after => simp [Text.dropLead?_eq_some.mp cut]
  unfold numberRest at read
  split at read
  case h_1 => simp at read
  case h_2 whole afterWhole first =>
    have := digits_length first
    split at read
    case isTrue => simp at read
    case isFalse =>
      split at read
      case h_1 => simp at read
      case h_2 part afterPart second =>
        have := fraction_length second
        split at read
        case h_1 => simp at read
        case h_2 power last third =>
          have := exponent_length third
          split at read
          · simp at read
          · simp only [Except.ok.injEq] at read
            subst read
            omega

/-- A string leaves no more text than there was. -/
theorem stringRest_length {text found rest : Text} (read : stringRest text = .ok (found, rest)) :
    rest.length ≤ text.length := by
  fun_induction stringRest text generalizing found with
  | case1 => simp at read
  | case2 text => simp_all
  | case3 => simp at read
  | case4 text value after _ _ _ ih =>
    cases inner : stringRest after with
    | error problem => simp [inner, Except.map] at read
    | ok pair =>
      simp only [inner, Except.map, Except.ok.injEq, Prod.mk.injEq] at read
      obtain ⟨_, rfl⟩ := read
      have := ih inner
      simp only [List.length_cons] at *
      omega
  | case5 => simp at read
  | case6 c text _ _ _ ih =>
    cases inner : stringRest text with
    | error problem => simp [inner, Except.map] at read
    | ok pair =>
      simp only [inner, Except.map, Except.ok.injEq, Prod.mk.injEq] at read
      obtain ⟨_, rfl⟩ := read
      have := ih inner
      simp only [List.length_cons] at *
      omega

/-- Reading a token never leaves more text than followed its first character. -/
theorem Token.read_length (c : Char) (rest : Text) :
    (Token.read c rest).2.length ≤ rest.length := by
  have bounded {token : Token} {result : Except Problem Text}
      (bound : ∀ after, result = .ok after → after.length ≤ rest.length) :
      (token.orBroken result).2.length ≤ rest.length := by
    cases result with
    | error problem => simp [orBroken]
    | ok after => exact bound after rfl
  unfold Token.read
  split
  case h_7 => exact bounded fun _ found => wordRest_length found
  case h_8 => exact bounded fun _ found => wordRest_length found
  case h_9 => exact bounded fun _ found => wordRest_length found
  case h_10 =>
    split
    case h_1 found => exact stringRest_length found
    case h_2 => simp
  case h_11 =>
    split
    · exact bounded fun _ found => Nat.le_of_lt_succ (numberRest_length found)
    · simp
  all_goals exact Nat.le_refl _

/-- The tokens of a text. -/
def tokens (text : Text) : List Token :=
  match text with
  | [] => []
  | c :: rest =>
    if isBlank c then tokens rest
    else
      have : (Token.read c rest).2.length < rest.length + 1 :=
        Nat.lt_succ_of_le (Token.read_length c rest)
      (Token.read c rest).1 :: tokens (Token.read c rest).2
termination_by text.length

end ClassHoist.Json
