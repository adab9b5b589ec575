import ClassHoist.Text.Pattern

/-! # Matches, one character at a time

The successive matches of a text are found from its front: if a match can be read there, it is the
first one and the others follow it; if not, the first character belongs to the text before the
first match.
-/

namespace ClassHoist.Pattern

variable {pattern : Pattern} {c : Char} {text rest found after before replacement : Text}

/-- A match that is read at the start of a text is found there. -/
theorem find?_of_read (matched : pattern.read (c :: rest) = some (found, after)) :
    pattern.find? (c :: rest) = some ([], found, after) := by
  rw [find?, matched]

/-- Where nothing is read, a match is looked for behind the first character. -/
theorem find?_of_read_eq_none (unmatched : pattern.read (c :: rest) = none) :
    pattern.find? (c :: rest) =
      (pattern.find? rest).map fun (before, found, after) => (c :: before, found, after) := by
  rw [find?, unmatched]

/-- Without a match there are no hits. -/
theorem hits_of_find?_eq_none (none : pattern.find? text = none) : pattern.hits text = ([], text) := by
  rw [hits]
  split
  · rfl
  · next located =>
    rw [none] at located
    cases located

/-- The hits are the first match and those behind it. -/
theorem hits_of_find? (located : pattern.find? text = some (before, found, after)) :
    pattern.hits text = (⟨before, found⟩ :: (pattern.hits after).1, (pattern.hits after).2) := by
  rw [hits]
  split
  · next none =>
    rw [located] at none
    cases none
  · next located' =>
    rw [located] at located'
    obtain ⟨rfl, rfl, rfl⟩ := located'
    rfl

theorem replaceAll_nil (pattern : Pattern) (replacement : Text) :
    pattern.replaceAll replacement [] = [] := by
  rw [replaceAll, hits_of_find?_eq_none rfl]
  rfl

/-- A match is replaced, and replacing goes on behind it. -/
theorem replaceAll_of_read (matched : pattern.read (c :: rest) = some (found, after)) :
    pattern.replaceAll replacement (c :: rest) =
      replacement ++ pattern.replaceAll replacement after := by
  rw [replaceAll, hits_of_find? (find?_of_read matched), replaceAll]
  simp only [List.flatMap_cons, List.nil_append, List.append_assoc]

/-- Where nothing is read, the first character is kept. -/
theorem replaceAll_of_read_eq_none (unmatched : pattern.read (c :: rest) = none) :
    pattern.replaceAll replacement (c :: rest) = c :: pattern.replaceAll replacement rest := by
  have located := find?_of_read_eq_none unmatched
  cases inRest : pattern.find? rest with
  | none =>
    rw [inRest, Option.map_none] at located
    rw [replaceAll, hits_of_find?_eq_none located, replaceAll, hits_of_find?_eq_none inRest]
    rfl
  | some parts =>
    obtain ⟨before, found, after⟩ := parts
    rw [inRest, Option.map_some] at located
    rw [replaceAll, hits_of_find? located, replaceAll, hits_of_find? inRest]
    rfl

/-- A text matches a literal pattern at its front if it starts with it. -/
theorem read_literal {part : Text} (nonempty : part ≠ []) (rest : Text) :
    (literal part nonempty).read (part ++ rest) = some (part, rest) := by
  simp only [literal, Text.dropLead?_eq_some.mpr rfl, Option.map_some]

/-- A literal is not read in front of any other text. -/
theorem read_literal_eq_none {part : Text} {nonempty : part ≠ []}
    (other : ∀ rest, text ≠ part ++ rest) : (literal part nonempty).read text = none := by
  simp only [literal, Option.map_eq_none_iff]
  cases dropped : Text.dropLead? part text with
  | none => rfl
  | some rest => exact absurd (Text.dropLead?_eq_some.mp dropped) (other rest)

end ClassHoist.Pattern
