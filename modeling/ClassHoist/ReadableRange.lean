import ClassHoist.Text.Blank
import ClassHoist.Text.Pattern

/-! # TypeScript at the start of a file

TypeScript is not read as markup. If a file declares it, the scripts at its start are left out of
reading; if they are anywhere else, the file is left alone.
-/

namespace ClassHoist

/-- The part of a file that can be read: the whole, if it declares no TypeScript, the file from an
offset on, after the scripts at its start and the white space after them, or nothing. -/
inductive ReadableRange where
  | whole
  | after (offset : Nat)
  | nothing
  deriving DecidableEq, Repr

namespace ReadableRange

/-- A quote. -/
def isQuote (c : Char) : Bool := c == '"' || c == '\''

/-- The text starts with an attribute that declares TypeScript. -/
def startsDeclaration (text : Text) : Bool :=
  match Text.dropLead? "lang=".toList text with
  | some (first :: 't' :: 's' :: last :: _) => isQuote first && isQuote last
  | _ => false

/-- The end of a script. -/
def scriptEnd : Pattern :=
  .literal ['<', '/', 's', 'c', 'r', 'i', 'p', 't', '>'] (by simp)

/-- The part of a file that can be read. The scripts at its start reach to the last end of a
script in it. -/
def ofContent (content : Text) : ReadableRange :=
  if !Text.somewhere startsDeclaration content then .whole
  else if !Text.startsWith "<script".toList content then .nothing
  else
    match scriptEnd.hits content with
    | ([], _) => .nothing
    | (hits, tail) =>
      .after (Text.bytes (hits.flatMap fun hit => hit.before ++ hit.found)
        + Text.bytes (tail.takeWhile Text.isBlank))

/-- Where reading starts, if the file is read at all. -/
def start? : ReadableRange → Option Nat
  | whole => some 0
  | after offset => some offset
  | nothing => none

end ReadableRange

end ClassHoist
