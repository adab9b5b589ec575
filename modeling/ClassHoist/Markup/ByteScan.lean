import ClassHoist.Text.Pattern
import ClassHoist.Text.Utf8

/-! # The end of an expression, byte by byte

The end of an expression can be found on the bytes of a source alone: every byte of a longer
character has a number that no bracket, quote, slash or backslash has, so a scan can go over it byte
by byte, and a backslash can be passed over together with the first byte only of the character
behind it. A scan fails where a cut of the source would fall inside a character, and where what it
skips does not end behind the offset.
-/

namespace ClassHoist.Markup.Expression

open Text

/-- The place of the quote that ends a string literal, going on at an offset inside it. -/
def skipString (source : Text) (quote : Char) (offset : Nat) : Option (Option Nat) :=
  match found : byteAt? source offset with
  | none => some none
  | some byte =>
    if byte = '\\' then skipString source quote (offset + 2)
    else if byte = quote then some (some offset)
    else skipString source quote (offset + 1)
termination_by source.bytes - offset
decreasing_by all_goals
  have inside := lt_bytes_of_byteAt? found
  omega

/-- The place behind the line comment that starts at an offset. -/
def skipLine (source : Text) (offset : Nat) : Option Nat := do
  let (_, rest) ← splitAt? offset source
  return offset + bytes (rest.takeWhile (· != '\n'))

/-- The place behind the comment whose text starts at an offset, if it ends. -/
def skipComment (source : Text) (offset : Nat) : Option (Option Nat) := do
  let (_, rest) ← splitAt? offset source
  let (comment, after) := spanUntil (startsWith ['*', '/']) rest
  return if after.isEmpty then none else some (offset + comment.bytes + 2)

mutual

/-- The place of the closing bracket that ends an expression, going on at an offset inside it where
some brackets are open. What is skipped has to end behind the offset. -/
def findClosing (source : Text) (close : Char) (depth offset : Nat) : Option (Option Nat) :=
  match found : byteAt? source offset with
  | none => some none
  | some byte =>
    if byte = '"' ∨ byte = '\'' then do
      match ← skipString source byte (offset + 1) with
      | none => return none
      | some stop => if offset < stop then findClosing source close depth (stop + 1) else none
    else if byte = '\x60' then do
      match ← skipTemplate source (offset + 1) with
      | none => return none
      | some stop => if offset < stop then findClosing source close depth (stop + 1) else none
    else if byte = '/' ∧ byteAt? source (offset + 1) = some '/' then do
      let stop ← skipLine source offset
      if offset < stop then findClosing source close depth stop else none
    else if byte = '/' ∧ byteAt? source (offset + 1) = some '*' then do
      match ← skipComment source (offset + 2) with
      | none => return none
      | some stop => if offset < stop then findClosing source close depth stop else none
    else if byte = '(' ∨ byte = '[' ∨ byte = '\x7b' then
      findClosing source close (depth + 1) (offset + 1)
    else if byte = ')' ∨ byte = ']' ∨ byte = '\x7d' then
      if depth = 0 ∧ byte = close then some (some offset)
      else findClosing source close (depth - 1) (offset + 1)
    else findClosing source close depth (offset + 1)
termination_by source.bytes - offset
decreasing_by all_goals
  have inside := lt_bytes_of_byteAt? found
  omega

/-- The place of the backtick that ends a template literal, going on at an offset inside it. -/
def skipTemplate (source : Text) (offset : Nat) : Option (Option Nat) :=
  match found : byteAt? source offset with
  | none => some none
  | some byte =>
    if byte = '\\' then skipTemplate source (offset + 2)
    else if byte = '\x60' then some (some offset)
    else if byte = '$' ∧ byteAt? source (offset + 1) = some '\x7b' then do
      match ← findClosing source '\x7d' 0 (offset + 2) with
      | none => return none
      | some stop => if offset < stop then skipTemplate source (stop + 1) else none
    else skipTemplate source (offset + 1)
termination_by source.bytes - offset
decreasing_by all_goals
  have inside := lt_bytes_of_byteAt? found
  omega

end

end ClassHoist.Markup.Expression
