import ClassHoist.Text.Basic

/-! # The bytes of a text

A text can be looked at byte by byte. Every byte of a longer character has a number that no short
character has, so a byte with the number of a short character is that character.
-/

namespace ClassHoist.Text

variable {text : Text} {offset : Nat}

/-- The bytes of a text. -/
def utf8 (text : Text) : List UInt8 := text.flatMap String.utf8EncodeChar

/-- The byte at an offset, as the character of the same number. -/
def byteAt? (text : Text) (offset : Nat) : Option Char :=
  text.utf8[offset]?.map fun byte => Char.ofNat byte.toNat

/-- The bytes of two texts one after the other are the bytes of the first, then those of the second.
-/
theorem utf8_append (first second : Text) : utf8 (first ++ second) = utf8 first ++ utf8 second :=
  List.flatMap_append

theorem utf8_cons (c : Char) (rest : Text) :
    utf8 (c :: rest) = String.utf8EncodeChar c ++ utf8 rest := rfl

/-- A text has as many bytes as its characters' sizes say. -/
theorem length_utf8 (text : Text) : (utf8 text).length = bytes text := by
  induction text with
  | nil => rfl
  | cons c rest ih =>
    rw [utf8_cons, List.length_append, String.length_utf8EncodeChar, ih, bytes_cons]

/-- Behind a first text, the bytes of a longer text are those of what was put there. -/
theorem getElem?_utf8_append (first second : Text) (offset : Nat) :
    (first ++ second).utf8[bytes first + offset]? = second.utf8[offset]? := by
  rw [utf8_append, ← length_utf8, List.getElem?_append_right (Nat.le_add_right _ _),
    Nat.add_sub_cancel_left]

/-- There is no byte at or past the end. -/
theorem byteAt?_eq_none (past : text.bytes ≤ offset) : byteAt? text offset = none := by
  rw [byteAt?, List.getElem?_eq_none (by rwa [length_utf8])]
  rfl

/-- Whatever byte is found lies inside the text. -/
theorem lt_bytes_of_byteAt? {byte : Char} (found : byteAt? text offset = some byte) :
    offset < text.bytes := by
  apply Nat.lt_of_not_le
  intro past
  rw [byteAt?_eq_none past] at found
  cases found

end ClassHoist.Text
