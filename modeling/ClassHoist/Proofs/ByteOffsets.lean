import ClassHoist.Text.Basic

/-! # Cutting a text at byte offsets

A boundary of a text is the number of bytes of some first part of it, so a statement about byte
offsets is turned here into one about the parts of a text joined together. The first parts of a
text are ordered by their byte counts (`Text.exists_append_of_bytes_le`), and so two cuts at one
offset are the same cut.
-/

namespace ClassHoist.Text

/-- A text that is not empty has a byte. -/
theorem bytes_pos {text : Text} (nonempty : text ≠ []) : 0 < bytes text := by
  have positive : bytes text ≠ 0 := fun zero => nonempty (bytes_eq_zero.mp zero)
  omega

/-- A text is split at an offset exactly into a front of that many bytes and the rest. -/
theorem splitAt?_eq_some_iff {offset : Nat} {text before after : Text} :
    splitAt? offset text = some (before, after) ↔
      text = before ++ after ∧ bytes before = offset := by
  constructor
  · intro cut
    obtain ⟨joined, counted⟩ := splitAt?_eq_some cut
    exact ⟨joined.symm, counted⟩
  · rintro ⟨rfl, rfl⟩
    exact splitAt?_append before after

/-- An offset is a boundary exactly if some front of the text has that many bytes. -/
theorem isBoundary_iff {text : Text} {offset : Nat} :
    isBoundary text offset = true ↔ ∃ before after, text = before ++ after ∧ bytes before = offset := by
  unfold isBoundary
  rw [Option.isSome_iff_exists]
  constructor
  · rintro ⟨⟨before, after⟩, cut⟩
    exact ⟨before, after, splitAt?_eq_some_iff.mp cut⟩
  · rintro ⟨before, after, whole⟩
    exact ⟨(before, after), splitAt?_eq_some_iff.mpr whole⟩

/-- Of two first parts of a text, the one with fewer bytes is a first part of the other. -/
theorem exists_append_of_bytes_le {before after before' after' : Text}
    (same : before ++ after = before' ++ after') (fewer : bytes before ≤ bytes before') :
    ∃ between, before' = before ++ between ∧ after = between ++ after' := by
  rcases List.append_eq_append_iff.mp same with ⟨between, left, right⟩ | ⟨between, left, right⟩
  · exact ⟨between, left, right⟩
  · have counted := congrArg bytes left
    rw [bytes_append] at counted
    have empty : between = [] := bytes_eq_zero.mp (by omega)
    subst empty
    exact ⟨[], by simpa using left.symm, by simpa using right.symm⟩

/-- Two ways to split a text at one byte offset are the same. -/
theorem append_inj_of_bytes {before after before' after' : Text}
    (same : before ++ after = before' ++ after') (equal : bytes before = bytes before') :
    before = before' ∧ after = after' := by
  have cut := splitAt?_append before after
  rw [same, equal, splitAt?_append] at cut
  obtain ⟨rfl, rfl⟩ := Prod.mk.inj (Option.some.inj cut)
  exact ⟨rfl, rfl⟩

/-- A part stands in a text from one byte offset up to another. -/
def Stands (text : Text) (start stop : Nat) (part : Text) : Prop :=
  ∃ before after, text = before ++ (part ++ after) ∧ bytes before = start ∧
    stop = start + bytes part

/-- No boundary lies past the end. -/
theorem bytes_le_of_isBoundary {text : Text} {offset : Nat}
    (boundary : isBoundary text offset = true) : offset ≤ bytes text := by
  obtain ⟨before, after, rfl, rfl⟩ := isBoundary_iff.mp boundary
  rw [bytes_append]
  omega

/-- Every front of a text ends at a boundary. -/
theorem isBoundary_bytes (before after : Text) : isBoundary (before ++ after) (bytes before) = true :=
  isBoundary_iff.mpr ⟨before, after, rfl, rfl⟩

/-- A part that stands in a text starts at a boundary. -/
theorem Stands.isBoundary_start {text part : Text} {start stop : Nat}
    (stands : Stands text start stop part) : isBoundary text start = true := by
  obtain ⟨before, after, whole, startIs, -⟩ := stands
  exact isBoundary_iff.mpr ⟨before, part ++ after, whole, startIs⟩

/-- A part that stands in a text stops at a boundary. -/
theorem Stands.isBoundary_stop {text part : Text} {start stop : Nat}
    (stands : Stands text start stop part) : isBoundary text stop = true := by
  obtain ⟨before, after, whole, startIs, stopIs⟩ := stands
  refine isBoundary_iff.mpr ⟨before ++ part, after, ?_, ?_⟩
  · rw [whole, List.append_assoc]
  · rw [bytes_append, startIs, stopIs]

/-- A part that is not empty stops behind its start. -/
theorem Stands.start_lt_stop {text part : Text} {start stop : Nat}
    (stands : Stands text start stop part) (nonempty : part ≠ []) : start < stop := by
  obtain ⟨before, after, -, -, stopIs⟩ := stands
  have positive := bytes_pos nonempty
  omega

/-- Two boundaries of a text in order cut it into three parts. -/
theorem exists_parts_of_isBoundary {text : Text} {start stop : Nat}
    (first : isBoundary text start = true) (second : isBoundary text stop = true)
    (ordered : start ≤ stop) :
    ∃ before part after, text = before ++ (part ++ after) ∧ bytes before = start ∧
      stop = start + bytes part := by
  obtain ⟨before, rest, whole, startIs⟩ := isBoundary_iff.mp first
  obtain ⟨longer, after, whole', stopIs⟩ := isBoundary_iff.mp second
  obtain ⟨part, rfl, rfl⟩ := exists_append_of_bytes_le (whole.symm.trans whole') (by omega)
  rw [bytes_append] at stopIs
  exact ⟨before, part, after, whole, startIs, by omega⟩

/-- Slicing a text where a part stands gives the part. -/
theorem Stands.slice?_eq {text part : Text} {start stop : Nat}
    (stands : Stands text start stop part) : slice? text start stop = some part := by
  obtain ⟨before, after, whole, startIs, stopIs⟩ := stands
  have ordered : start ≤ stop := by omega
  have first := splitAt?_eq_some_iff.mpr ⟨whole, startIs⟩
  have second : splitAt? (stop - start) (part ++ after) = some (part, after) :=
    splitAt?_eq_some_iff.mpr ⟨rfl, by omega⟩
  have allowed : (guard (start ≤ stop) : Option Unit) = some () := if_pos ordered
  rw [slice?, allowed]
  simp only [first, second, Option.bind_eq_bind, Option.pure_def, Option.bind_some]

/-- The slice between the bytes of a front and those of front and part is the part. -/
theorem slice_of_eq {text before part after : Text} {start stop : Nat}
    (whole : text = before ++ (part ++ after)) (startIs : bytes before = start)
    (stopIs : stop = start + bytes part) : slice text start stop = part := by
  have stands : Stands text start stop part := ⟨before, after, whole, startIs, stopIs⟩
  rw [slice, stands.slice?_eq, Option.getD_some]

/-- A boundary inside a part cuts it in two. -/
theorem Stands.split {text part : Text} {start middle stop : Nat}
    (stands : Stands text start stop part) (boundary : isBoundary text middle = true)
    (from_ : start ≤ middle) (upTo : middle ≤ stop) :
    ∃ first second, part = first ++ second ∧ Stands text start middle first ∧
      Stands text middle stop second := by
  obtain ⟨before, after, whole, startIs, stopIs⟩ := stands
  obtain ⟨longer, rest, whole', middleIs⟩ := isBoundary_iff.mp boundary
  obtain ⟨first, rfl, split⟩ :=
    exists_append_of_bytes_le (whole.symm.trans whole') (by omega)
  rw [bytes_append] at middleIs
  obtain ⟨second, rfl, restIs⟩ := exists_append_of_bytes_le split.symm (by omega)
  rw [bytes_append] at stopIs
  refine ⟨first, second, rfl, ⟨before, second ++ after, ?_, startIs, by omega⟩,
    ⟨before ++ first, after, ?_, ?_, by omega⟩⟩
  · rw [whole, List.append_assoc]
  · rw [whole, List.append_assoc, List.append_assoc]
  · rw [bytes_append, middleIs]

/-- The character that starts at a byte offset. -/
def charAt? (text : Text) (offset : Nat) : Option Char :=
  (splitAt? offset text).bind fun cut => cut.2.head?

/-- A character is found at an offset exactly if the front before it has that many bytes. -/
theorem charAt?_eq_some_iff {text : Text} {offset : Nat} {c : Char} :
    charAt? text offset = some c ↔ ∃ before after, text = before ++ c :: after ∧
      bytes before = offset := by
  unfold charAt?
  rw [Option.bind_eq_some_iff]
  constructor
  · rintro ⟨⟨before, rest⟩, cut, first⟩
    obtain ⟨whole, counted⟩ := splitAt?_eq_some_iff.mp cut
    obtain ⟨after, rfl⟩ := List.head?_eq_some_iff.mp first
    exact ⟨before, after, whole, counted⟩
  · rintro ⟨before, after, whole, counted⟩
    exact ⟨(before, c :: after), splitAt?_eq_some_iff.mpr ⟨whole, counted⟩, rfl⟩

/-- The character behind a front is found at the size of the front. -/
theorem charAt?_append (before after : Text) (c : Char) :
    charAt? (before ++ c :: after) (bytes before) = some c :=
  charAt?_eq_some_iff.mpr ⟨before, after, rfl, rfl⟩

end ClassHoist.Text
