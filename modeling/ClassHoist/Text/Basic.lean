/-! # Text measured in bytes

A text is the list of its characters. Offsets into it count UTF-8 bytes, columns count UTF-16
code units, and a text can be cut only between two characters.
-/

namespace ClassHoist

/-- A text, as the list of its characters. -/
abbrev Text := List Char

namespace Text

/-- The number of bytes the text occupies in UTF-8. -/
def bytes : Text → Nat
  | [] => 0
  | c :: rest => c.utf8Size + bytes rest

/-- The number of UTF-16 code units of a character. -/
def charUnits (c : Char) : Nat :=
  if c.toNat < 0x10000 then 1 else 2

/-- The number of UTF-16 code units of the text. -/
def units : Text → Nat
  | [] => 0
  | c :: rest => charUnits c + units rest

/-- Cut the text after `offset` bytes; there is no cut past the end or inside a character. -/
def splitAt? : Nat → Text → Option (Text × Text)
  | 0, text => some ([], text)
  | _ + 1, [] => none
  | offset + 1, c :: rest =>
    if c.utf8Size ≤ offset + 1 then
      (splitAt? (offset + 1 - c.utf8Size) rest).map fun (before, after) => (c :: before, after)
    else none

/-- The byte offset is the end of some first part of the text. -/
def isBoundary (text : Text) (offset : Nat) : Bool :=
  (splitAt? offset text).isSome

/-- The part of the text between two byte offsets, if both are boundaries in order. -/
def slice? (text : Text) (start stop : Nat) : Option Text := do
  guard (start ≤ stop)
  let (_, after) ← splitAt? start text
  let (part, _) ← splitAt? (stop - start) after
  return part

/-- The part of the text between two byte offsets that are boundaries in order. -/
def slice (text : Text) (start stop : Nat) : Text :=
  (slice? text start stop).getD []

@[simp] theorem bytes_nil : bytes [] = 0 := rfl

@[simp] theorem bytes_cons (c : Char) (rest : Text) :
    bytes (c :: rest) = c.utf8Size + bytes rest := rfl

/-- The size of two texts one after the other is the sum of their sizes. -/
@[simp] theorem bytes_append (first second : Text) :
    bytes (first ++ second) = bytes first + bytes second := by
  induction first with
  | nil => simp
  | cons c rest ih => simp [ih, Nat.add_assoc]

/-- The same for sizes in UTF-16 units. -/
@[simp] theorem units_append (first second : Text) :
    units (first ++ second) = units first + units second := by
  induction first with
  | nil => simp [units]
  | cons c rest ih => simp [units, ih, Nat.add_assoc]

/-- A character takes at least one byte, so only the empty text takes none. -/
theorem bytes_eq_zero {text : Text} : bytes text = 0 ↔ text = [] := by
  cases text with
  | nil => simp
  | cons c rest =>
    have := c.utf8Size_pos
    simp
    omega

/-- A cut loses nothing and its first part has the asked length. -/
theorem splitAt?_eq_some {offset : Nat} {text before after : Text}
    (cut : splitAt? offset text = some (before, after)) :
    before ++ after = text ∧ bytes before = offset := by
  induction text generalizing offset before with
  | nil =>
    cases offset with
    | zero => simp_all [splitAt?]
    | succ n => simp [splitAt?] at cut
  | cons c rest ih =>
    cases offset with
    | zero => simp_all [splitAt?]
    | succ n =>
      simp only [splitAt?] at cut
      split at cut
      case isTrue fits =>
        obtain ⟨⟨inner, tail⟩, found, same⟩ := Option.map_eq_some_iff.mp cut
        obtain ⟨rfl, rfl⟩ := Prod.mk.inj same
        obtain ⟨joined, counted⟩ := ih found
        exact ⟨by simp [joined], by simp only [bytes_cons, counted]; omega⟩
      case isFalse => simp at cut

/-- A text can be cut between any two parts of it. -/
theorem splitAt?_append (before after : Text) :
    splitAt? (bytes before) (before ++ after) = some (before, after) := by
  induction before with
  | nil => simp [splitAt?]
  | cons c rest ih =>
    have positive := c.utf8Size_pos
    obtain ⟨n, counted⟩ : ∃ n, c.utf8Size + bytes rest = n + 1 :=
      ⟨c.utf8Size + bytes rest - 1, by omega⟩
    have remaining : n + 1 - c.utf8Size = bytes rest := by omega
    have fits : c.utf8Size ≤ n + 1 := by omega
    simp only [bytes_cons, counted, List.cons_append, splitAt?, fits, ↓reduceIte, remaining, ih,
      Option.map_some]

end Text

end ClassHoist
