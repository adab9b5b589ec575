import ClassHoist.Proofs.Positions

/-! # Where lines start

The lines of a text make up the text (`LineTable.flatMap_text_linesFrom`), and each of them stands in
it from its start on. So the table of the lines has a position for every boundary of the text and for
no other offset (`LineTable.position?_eq`), positions grow with offsets, and each line starts at the
one offset whose position is in its first column (`LineTable.positions_ofText`).
-/

namespace ClassHoist

theorem Text.units_eq_zero {text : Text} : units text = 0 ↔ text = [] := by
  cases text with
  | nil => exact iff_of_true rfl rfl
  | cons c rest =>
    have positive := Position.charUnits_pos c
    refine iff_of_false (fun none => ?_) (List.cons_ne_nil c rest)
    rw [units] at none
    omega

namespace LineTable

section Lines

variable {start : Nat} {seen text : Text} {line other : Line} {earlier later lines : List Line}

/-- Every line feed is followed by one more line. -/
theorem length_linesFrom (start : Nat) (seen text : Text) :
    (linesFrom start seen text).length = text.count '\n' + 1 := by
  induction text generalizing start seen with
  | nil => rfl
  | cons c rest ih =>
    unfold linesFrom
    split
    case isTrue feed => rw [List.length_cons, ih, feed, List.count_cons_self]
    case isFalse noFeed => rw [ih, List.count_cons_of_ne noFeed]

/-- The lines make up the text. -/
theorem flatMap_text_linesFrom (start : Nat) (seen text : Text) :
    (linesFrom start seen text).flatMap Line.text = seen.reverse ++ text := by
  induction text generalizing start seen with
  | nil => rfl
  | cons c rest ih =>
    unfold linesFrom
    split
    · rw [List.flatMap_cons, ih, List.reverse_cons, List.append_assoc]
      rfl
    · rw [ih, List.reverse_cons, List.append_assoc]
      rfl

/-- A line starts behind the ones in front of it. -/
theorem start_eq_of_linesFrom (split : linesFrom start seen text = earlier ++ line :: later) :
    line.start = start + Text.bytes (earlier.flatMap Line.text) := by
  induction text generalizing start seen earlier with
  | nil =>
    cases earlier with
    | nil =>
      obtain rfl := (List.cons.inj split).1
      rfl
    | cons first earlier => cases earlier <;> cases (List.cons.inj split).2
  | cons c rest ih =>
    unfold linesFrom at split
    split at split
    · cases earlier with
      | nil =>
        rw [← (List.cons.inj split).1]
        rfl
      | cons first earlier =>
        obtain ⟨rfl, others⟩ := List.cons.inj split
        rw [ih others, List.flatMap_cons, Text.bytes_append, Nat.add_assoc]
    · exact ih split

theorem linesFrom_increase (start : Nat) (seen text : Text) :
    (linesFrom start seen text).Pairwise fun first second => first.start < second.start := by
  induction text generalizing start seen with
  | nil => exact List.pairwise_singleton _ _
  | cons c rest ih =>
    unfold linesFrom
    split
    · refine List.pairwise_cons.mpr ⟨fun next member => ?_, ih _ _⟩
      have behind := le_start_of_mem_linesFrom member
      have positive := c.utf8Size_pos
      rw [bytes_reverse, Text.bytes_cons] at behind
      dsimp only
      omega
    · exact ih _ _

/-- A line of a text stands in it from its start on. -/
theorem stands_of_mem_lines (member : line ∈ (ofText text).lines) :
    Text.Stands text line.start (line.start + Text.bytes line.text) line.text := by
  obtain ⟨earlier, later, split⟩ := List.append_of_mem (Array.mem_toList_iff.mpr member)
  have whole := flatMap_text_linesFrom 0 [] text
  have startIs := start_eq_of_linesFrom split
  rw [show linesFrom 0 [] text = earlier ++ line :: later from split, List.flatMap_append,
    List.flatMap_cons, List.reverse_nil, List.nil_append] at whole
  exact ⟨_, _, whole.symm, by rw [startIs, Nat.zero_add], rfl⟩

/-- Where starts increase, a line is told by what lies around its start. -/
theorem index_eq_of_start {number : Nat}
    (increase : lines.Pairwise fun first second => first.start < second.start)
    (split : lines = earlier ++ line :: later) (found : lines[number]? = some other)
    (reached : line.start ≤ other.start) (behind : ∀ next ∈ later, other.start < next.start) :
    number = earlier.length ∧ other = line := by
  obtain ⟨inside, rfl⟩ := List.getElem?_eq_some_iff.mp found
  have here : lines[earlier.length]? = some line := by
    rw [split, List.getElem?_append_right (Nat.le_refl _), Nat.sub_self]
    rfl
  obtain ⟨lineInside, rfl⟩ := List.getElem?_eq_some_iff.mp here
  rcases Nat.lt_trichotomy number earlier.length with before | rfl | after
  · have isBefore := List.pairwise_iff_getElem.mp increase _ _ inside lineInside before
    omega
  · exact ⟨rfl, rfl⟩
  · have isLater : lines[number] ∈ later := by
      obtain ⟨more, rfl⟩ := Nat.exists_eq_add_of_lt after
      have further : lines[earlier.length + more + 1]? = later[more]? := by
        rw [split, List.getElem?_append_right (by omega),
          show earlier.length + more + 1 - earlier.length = more + 1 by omega]
        rfl
      exact List.mem_of_getElem? (further.symm.trans found)
    exact absurd (behind _ isLater) (Nat.lt_irrefl _)

end Lines

section Positions

variable {text : Text} {table : LineTable} {offset offset' count number : Nat}
  {position position' : Position}

theorem exists_line_of_countThrough (counted : table.countThrough offset count = number + 1) :
    ∃ line, table.lines[number]? = some line ∧ line.start ≤ offset := by
  induction count with
  | zero => cases counted
  | succ count ih =>
    rw [countThrough] at counted
    cases found : table.lines[count]? with
    | none =>
      rw [found] at counted
      exact ih counted
    | some line =>
      simp only [found] at counted
      split at counted
      case isTrue reached =>
        obtain rfl := Nat.succ.inj counted
        exact ⟨line, found, reached⟩
      case isFalse => exact ih counted

/-- The line that a position is counted in starts at or before the offset. -/
theorem start_le_of_getElem? {line : Line}
    (found : (ofText text).lines[(ofText text).countThrough offset (ofText text).lines.size - 1]? =
      some line) : line.start ≤ offset := by
  cases counted : (ofText text).countThrough offset (ofText text).lines.size with
  | zero =>
    obtain ⟨more, later, lines, -⟩ := exists_linesFrom 0 [] text
    rw [counted, ofText, lines] at found
    obtain rfl := Option.some.inj found
    exact Nat.zero_le offset
  | succ number =>
    obtain ⟨other, isThere, reached⟩ := exists_line_of_countThrough counted
    rw [counted, Nat.add_sub_cancel, isThere] at found
    exact Option.some.inj found ▸ reached

/-- Only boundaries of the text have a position. -/
theorem isBoundary_of_position? (found : (ofText text).position? offset = some position) :
    Text.isBoundary text offset = true := by
  obtain ⟨line, isThere, cut⟩ := Option.bind_eq_some_iff.mp found
  obtain ⟨⟨front, back⟩, cut, -⟩ := Option.bind_eq_some_iff.mp cut
  obtain ⟨lineIs, frontIs⟩ := Text.splitAt?_eq_some_iff.mp cut
  have reached := start_le_of_getElem? isThere
  obtain ⟨before, after, whole, startIs, -⟩ := stands_of_mem_lines (Array.mem_of_getElem? isThere)
  refine Text.isBoundary_iff.mpr ⟨before ++ front, back ++ after, ?_, ?_⟩
  · rw [whole, lineIs, List.append_assoc, List.append_assoc]
  · rw [Text.bytes_append, startIs, frontIs]
    omega

/-- **The position of an offset.** It is the one that the text in front of the offset advances to. -/
theorem position?_eq (text : Text) (offset : Nat) :
    (ofText text).position? offset =
      (text.splitAt? offset).map fun cut => Position.advanceText ⟨0, 0⟩ cut.1 := by
  cases cut : text.splitAt? offset with
  | some parts =>
    obtain ⟨rfl, rfl⟩ := Text.splitAt?_eq_some_iff.mp cut
    exact position?_ofText parts.1 parts.2
  | none =>
    refine Option.eq_none_iff_forall_ne_some.mpr fun position found => ?_
    have boundary := isBoundary_of_position? found
    rw [Text.isBoundary, cut] at boundary
    cases boundary

theorem position?_eq_some_iff : (ofText text).position? offset = some position ↔
    ∃ before after, text = before ++ after ∧ Text.bytes before = offset ∧
      Position.advanceText ⟨0, 0⟩ before = position := by
  rw [position?_eq, Option.map_eq_some_iff]
  simp only [Prod.exists, Text.splitAt?_eq_some_iff, and_assoc]

theorem position?_eq_none_iff : (ofText text).position? offset = none ↔
    Text.bytes text < offset ∨ Text.isBoundary text offset = false := by
  rw [position?_eq, Option.map_eq_none_iff, ← Option.not_isSome_iff_eq_none, ← Text.isBoundary,
    Bool.not_eq_true]
  refine ⟨.inr, fun outside => outside.elim (fun past => ?_) id⟩
  refine Bool.eq_false_iff.mpr fun boundary => ?_
  exact absurd (Text.bytes_le_of_isBoundary boundary) (Nat.not_le_of_lt past)

theorem before_of_lt (found : (ofText text).position? offset = some position)
    (found' : (ofText text).position? offset' = some position') (further : offset < offset') :
    position.Before position' := by
  obtain ⟨before, after, whole, rfl, rfl⟩ := position?_eq_some_iff.mp found
  obtain ⟨longer, rest, whole', rfl, rfl⟩ := position?_eq_some_iff.mp found'
  obtain ⟨between, rfl, -⟩ :=
    Text.exists_append_of_bytes_le (whole.symm.trans whole') (Nat.le_of_lt further)
  rw [Position.advanceText_append]
  apply Position.before_advanceText
  rintro rfl
  rw [List.append_nil] at further
  exact Nat.lt_irrefl _ further

/-- Positions grow with offsets. -/
theorem before_iff_lt (found : (ofText text).position? offset = some position)
    (found' : (ofText text).position? offset' = some position') :
    offset < offset' ↔ position.Before position' := by
  refine ⟨before_of_lt found found', fun before => ?_⟩
  rcases Nat.lt_trichotomy offset offset' with further | rfl | closer
  · exact further
  · exact absurd (Option.some.inj (found.symm.trans found')) before.ne
  · exact absurd rfl (before.trans (before_of_lt found' found closer)).ne

theorem lineStart?_eq_none_iff : table.lineStart? number = none ↔ table.lineCount ≤ number := by
  rw [lineStart?, Option.map_eq_none_iff, Array.getElem?_eq_none_iff, lineCount]

/-- A line starts at the one offset whose position is in its first column. -/
theorem lineStart?_eq_some_iff : (ofText text).lineStart? number = some offset ↔
    (ofText text).position? offset = some ⟨number, 0⟩ := by
  constructor
  · intro starts
    obtain ⟨other, found, rfl⟩ := Option.map_eq_some_iff.mp starts
    obtain ⟨before, after, whole, startIs, -⟩ := stands_of_mem_lines (Array.mem_of_getElem? found)
    generalize other.text ++ after = rest at whole
    obtain ⟨earlier, line, later, front, back, split, -, offsetIs, positionIs, behind⟩ :=
      exists_line 0 0 [] before rest
    rw [Text.bytes_nil, Nat.zero_add, startIs] at offsetIs behind
    rw [← whole] at split
    have found' : (linesFrom 0 [] text)[number]? = some other := by
      rw [← found, ofText, List.getElem?_toArray]
    obtain ⟨rfl, rfl⟩ := index_eq_of_start (linesFrom_increase 0 [] text) split found'
      (Nat.le.intro offsetIs.symm) behind
    obtain rfl : front = [] := Text.bytes_eq_zero.mp (by omega)
    rw [Nat.zero_add] at positionIs
    exact position?_eq_some_iff.mpr ⟨before, rest, whole, startIs, positionIs⟩
  · intro found
    obtain ⟨before, after, rfl, rfl, positionIs⟩ := position?_eq_some_iff.mp found
    obtain ⟨earlier, line, later, front, back, split, -, offsetIs, advanced, -⟩ :=
      exists_line 0 0 [] before after
    obtain ⟨isNumber, isColumn⟩ := Position.mk.inj (advanced.symm.trans positionIs)
    obtain rfl := Text.units_eq_zero.mp isColumn
    rw [Nat.zero_add] at isNumber
    rw [Text.bytes_nil] at offsetIs
    refine Option.map_eq_some_iff.mpr ⟨line, ?_, by omega⟩
    rw [ofText, split, List.getElem?_toArray, ← isNumber,
      List.getElem?_append_right (Nat.le_refl _), Nat.sub_self]
    rfl

end Positions

/-- **The table of the lines.** It has the position that the text in front of an offset advances to,
for the boundaries of the text only, and positions grow with offsets. It has one line more than the
text has line feeds, and each of them starts at the one offset whose position is in its first
column. -/
theorem positions_ofText (text : Text) :
    let table := ofText text
    (∀ offset, table.position? offset = none ↔
      Text.bytes text < offset ∨ Text.isBoundary text offset = false) ∧
    (∀ offset, table.position? offset =
      (text.splitAt? offset).map fun cut => Position.advanceText ⟨0, 0⟩ cut.1) ∧
    (∀ offset offset' position position', table.position? offset = some position →
      table.position? offset' = some position' → (offset < offset' ↔ position.Before position')) ∧
    table.lineCount = text.count '\n' + 1 ∧
    (∀ line, table.lineStart? line = none ↔ table.lineCount ≤ line) ∧
    ∀ line offset, table.lineStart? line = some offset ↔
      table.position? offset = some ⟨line, 0⟩ := by
  intro table
  exact ⟨fun _ => position?_eq_none_iff, position?_eq text,
    fun _ _ _ _ found found' => before_iff_lt found found', length_linesFrom 0 [] text,
    fun _ => lineStart?_eq_none_iff, fun _ _ => lineStart?_eq_some_iff⟩

/-- Characters of one, two and four bytes, and a line feed at the end. -/
theorem positions_ofText_wide :
    let table := ofText ['é', '\n', '😀', 'x', '\n']
    table.position? 2 = some ⟨0, 1⟩ ∧ table.position? 7 = some ⟨1, 2⟩ ∧
      (2 < 7 ↔ Position.Before ⟨0, 1⟩ ⟨1, 2⟩) ∧ table.position? 5 = none ∧
      table.lineStart? 2 = some 9 ∧ table.lineStart? 3 = none := by
  intro table
  obtain ⟨-, -, grow, -⟩ := positions_ofText ['é', '\n', '😀', 'x', '\n']
  have first : table.position? 2 = some ⟨0, 1⟩ := by decide
  have second : table.position? 7 = some ⟨1, 2⟩ := by decide
  exact ⟨first, second, grow 2 7 _ _ first second, by decide, by decide, by decide⟩

end LineTable

end ClassHoist
