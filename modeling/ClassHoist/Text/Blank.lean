import ClassHoist.Text.Basic

/-! # White space

Three classes of white space are told apart: the Unicode property `White_Space`, the blanks
between two tokens of a tag, and the ASCII white space that ends an unquoted attribute value.
-/

namespace ClassHoist.Text

/-- The characters with the Unicode property `White_Space`. -/
def isBlank (c : Char) : Bool :=
  let n := c.toNat
  (0x09 ≤ n && n ≤ 0x0D) || n == 0x20 || n == 0x85 || n == 0xA0 || n == 0x1680 ||
    (0x2000 ≤ n && n ≤ 0x200A) || n == 0x2028 || n == 0x2029 || n == 0x202F || n == 0x205F ||
    n == 0x3000

/-- Tab, line feed, form feed, carriage return and space: all ASCII white space but the vertical
tab. These separate tokens, and they end an unquoted attribute value. -/
def isSeparator (c : Char) : Bool :=
  c == ' ' || c == '\t' || c == '\n' || c == '\r' || c == '\x0c'

/-- The text without the white space in front. -/
def trimLeft (text : Text) : Text :=
  text.dropWhile isBlank

/-- The text without the white space at its end. -/
def trimRight (text : Text) : Text :=
  (text.reverse.dropWhile isBlank).reverse

/-- The text without the white space at either end. -/
def trim (text : Text) : Text :=
  trimRight (trimLeft text)

/-- Separators are white space. -/
theorem isBlank_of_isSeparator {c : Char} (separator : isSeparator c = true) :
    isBlank c = true := by
  simp only [isSeparator, Bool.or_eq_true, beq_iff_eq] at separator
  rcases separator with (((rfl | rfl) | rfl) | rfl) | rfl <;> decide

end ClassHoist.Text
