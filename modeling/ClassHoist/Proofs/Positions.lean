import ClassHoist.Position
import ClassHoist.Proofs.ByteOffsets

/-! # Positions of offsets

The table of the lines of a text gives, for every boundary of the text, the position that advancing
over the text in front of it gives (`LineTable.position?_ofText`). Positions grow strictly from one
character to the next.
-/

namespace ClassHoist

namespace Position

/-- The first position comes strictly before the second in reading order. -/
def Before (first second : Position) : Prop :=
  first.line < second.line ∨ (first.line = second.line ∧ first.column < second.column)

theorem Before.trans {first second third : Position} (left : first.Before second)
    (right : second.Before third) : first.Before third := by
  unfold Before at left right ⊢
  omega

/-- What is not before a later position is behind an earlier one. -/
theorem Before.of_not_before {first second third : Position} (before : first.Before second)
    (notBefore : ¬ third.Before second) : first.Before third := by
  unfold Before at before notBefore ⊢
  omega

theorem Before.ne {first second : Position} (before : first.Before second) : first ≠ second := by
  rintro rfl
  unfold Before at before
  omega

/-- A position is at most another exactly if the other is not before it. -/
theorem le_iff_not_before {first second : Position} :
    first.le second = true ↔ ¬ second.Before first := by
  unfold le Before
  simp only [Bool.or_eq_true, Bool.and_eq_true, decide_eq_true_eq, beq_iff_eq]
  omega

theorem Before.le {first second : Position} (before : first.Before second) :
    first.le second = true := by
  refine le_iff_not_before.mpr fun back => ?_
  unfold Before at before back
  omega

/-- Every character takes room. -/
theorem charUnits_pos (c : Char) : 0 < Text.charUnits c := by
  unfold Text.charUnits
  split <;> decide

/-- A position is before the one behind a character. -/
theorem before_advance (position : Position) (c : Char) : position.Before (position.advance c) := by
  have positive := charUnits_pos c
  unfold advance
  split
  · exact .inl (Nat.lt_succ_self _)
  · exact .inr ⟨rfl, by simp only; omega⟩

/-- Advancing over two texts is advancing over the first and then over the second. -/
theorem advanceText_append (position : Position) (first second : Text) :
    position.advanceText (first ++ second) = (position.advanceText first).advanceText second :=
  List.foldl_append

theorem advanceText_cons (position : Position) (c : Char) (rest : Text) :
    position.advanceText (c :: rest) = (position.advance c).advanceText rest := rfl

/-- Text moves a position on, unless it is empty. -/
theorem before_advanceText (position : Position) {text : Text} (nonempty : text ≠ []) :
    position.Before (position.advanceText text) := by
  induction text generalizing position with
  | nil => exact absurd rfl nonempty
  | cons c rest ih =>
    have first := position.before_advance c
    by_cases last : rest = []
    · rw [last]
      exact first
    · exact first.trans (ih _ last)

/-- Text without line feeds stays on the line. -/
theorem advanceText_of_no_feed (position : Position) {text : Text} (noFeed : '\n' ∉ text) :
    position.advanceText text = ⟨position.line, position.column + Text.units text⟩ := by
  induction text generalizing position with
  | nil => rfl
  | cons c rest ih =>
    have notFeed : c ≠ '\n' := fun same => noFeed (same ▸ List.mem_cons_self)
    rw [advanceText_cons, ih _ fun inRest => noFeed (List.mem_cons_of_mem _ inRest), advance,
      if_neg notFeed, Text.units, Nat.add_assoc]

end Position

namespace LineTable

/-- The lines of a text start at or after the text does. -/
theorem le_start_of_mem_linesFrom {start : Nat} {seen text : Text} {line : Line}
    (member : line ∈ linesFrom start seen text) : start ≤ line.start := by
  induction text generalizing start seen with
  | nil => exact Nat.le_of_eq (congrArg Line.start (List.mem_singleton.mp member)).symm
  | cons c rest ih =>
    unfold linesFrom at member
    split at member
    · rcases List.mem_cons.mp member with rfl | later
      · exact Nat.le_refl _
      · exact Nat.le_trans (Nat.le_add_right _ _) (ih later)
    · exact ih member

/-- A text has as many bytes backwards. -/
theorem bytes_reverse (text : Text) : Text.bytes text.reverse = Text.bytes text := by
  induction text with
  | nil => rfl
  | cons c rest ih =>
    rw [List.reverse_cons, Text.bytes_append, ih, Text.bytes_cons, Text.bytes_cons,
      Text.bytes_nil]
    omega

/-- The line being read goes on to its line feed, and the next one starts after that. -/
theorem exists_linesFrom (start : Nat) (seen text : Text) :
    ∃ more later, linesFrom start seen text = ⟨start, seen.reverse ++ more⟩ :: later ∧
      ∀ line ∈ later, start + Text.bytes seen < line.start := by
  induction text generalizing seen with
  | nil =>
    refine ⟨[], [], ?_, by intro line member; cases member⟩
    rw [List.append_nil]
    rfl
  | cons c rest ih =>
    unfold linesFrom
    split
    case isTrue feed =>
      refine ⟨[c], _, by rw [List.reverse_cons], ?_⟩
      intro line member
      have after := le_start_of_mem_linesFrom member
      have positive := c.utf8Size_pos
      rw [← List.reverse_cons, bytes_reverse, Text.bytes_cons] at after
      omega
    case isFalse =>
      obtain ⟨more, later, lines, behind⟩ := ih (c :: seen)
      refine ⟨c :: more, later, ?_, ?_⟩
      · rw [lines, List.reverse_cons, List.append_assoc]
        rfl
      · intro line member
        have after := behind line member
        have positive := c.utf8Size_pos
        rw [Text.bytes_cons] at after
        omega

/-- The line on which a place of the text lies, and how much of the line is in front of the
place. -/
theorem exists_line (start number : Nat) (seen before after : Text) :
    ∃ earlier line later front back, linesFrom start seen (before ++ after) =
        earlier ++ line :: later ∧
      line.text = front ++ back ∧
      start + Text.bytes seen + Text.bytes before = line.start + Text.bytes front ∧
      Position.advanceText ⟨number, Text.units seen.reverse⟩ before =
        ⟨number + earlier.length, Text.units front⟩ ∧
      ∀ next ∈ later, start + Text.bytes seen + Text.bytes before < next.start := by
  induction before generalizing start number seen with
  | nil =>
    obtain ⟨more, later, lines, behind⟩ := exists_linesFrom start seen after
    refine ⟨[], _, later, seen.reverse, more, lines, rfl, ?_, rfl, behind⟩
    rw [bytes_reverse]
    rfl
  | cons c rest ih =>
    rw [List.cons_append]
    unfold linesFrom
    -- A line feed ends the line, and the character behind it starts one.
    by_cases feed : c = '\n'
    · obtain ⟨earlier, line, later, front, back, lines, textIs, offsetIs, positionIs, behind⟩ :=
        ih (start + Text.bytes (c :: seen).reverse) (number + 1) []
      rw [bytes_reverse, Text.bytes_cons, Text.bytes_nil] at offsetIs behind
      refine ⟨⟨start, (c :: seen).reverse⟩ :: earlier, line, later, front, back, ?_, textIs, ?_, ?_,
        ?_⟩
      · rw [if_pos feed]
        exact congrArg (_ :: ·) lines
      · rw [Text.bytes_cons]
        omega
      · rw [Position.advanceText_cons, Position.advance, if_pos feed, List.length_cons]
        refine positionIs.trans ?_
        rw [Nat.add_assoc, Nat.add_comm 1]
      · intro next member
        have after := behind next member
        rw [Text.bytes_cons]
        omega
    · obtain ⟨earlier, line, later, front, back, lines, textIs, offsetIs, positionIs, behind⟩ :=
        ih start number (c :: seen)
      rw [Text.bytes_cons] at offsetIs behind
      refine ⟨earlier, line, later, front, back, ?_, textIs, ?_, ?_, ?_⟩
      · rw [if_neg feed, lines]
      · rw [Text.bytes_cons]
        omega
      · rw [Position.advanceText_cons, Position.advance, if_neg feed, ← positionIs,
          List.reverse_cons, Text.units_append]
        rfl
      · intro next member
        have after := behind next member
        rw [Text.bytes_cons]
        omega

/-- Of lines in order, those that start up to an offset are counted. -/
theorem countThrough_eq {earlier later : List Line} {line : Line} {offset : Nat}
    (reached : line.start ≤ offset) (behind : ∀ next ∈ later, offset < next.start) {count : Nat}
    (enough : count ≤ later.length) :
    countThrough ⟨(earlier ++ line :: later).toArray⟩ offset (earlier.length + 1 + count) =
      earlier.length + 1 := by
  induction count with
  | zero =>
    rw [Nat.add_zero, countThrough]
    simp only [List.getElem?_toArray, List.getElem?_append_right (Nat.le_refl _), Nat.sub_self,
      List.getElem?_cons_zero, reached, ↓reduceIte]
  | succ count ih =>
    have inside : count < later.length := by omega
    have found : (earlier ++ line :: later)[earlier.length + 1 + count]? = some later[count] := by
      rw [List.getElem?_append_right (by omega),
        show earlier.length + 1 + count - earlier.length = count + 1 by omega,
        List.getElem?_cons_succ, List.getElem?_eq_getElem inside]
    have beyond := behind _ (List.getElem_mem inside)
    rw [← Nat.add_assoc, countThrough]
    simp only [List.getElem?_toArray, found, Nat.not_le.mpr beyond, ↓reduceIte]
    exact ih (by omega)

/-- **Positions.** The position of a boundary is the one after the text in front of it. -/
theorem position?_ofText (before after : Text) :
    (ofText (before ++ after)).position? (Text.bytes before) =
      some (Position.advanceText ⟨0, 0⟩ before) := by
  obtain ⟨earlier, line, later, front, back, lines, textIs, offsetIs, positionIs, behind⟩ :=
    exists_line 0 0 [] before after
  rw [Text.bytes_nil] at offsetIs behind
  have reached : line.start ≤ Text.bytes before := by omega
  have size : (ofText (before ++ after)).lines.size = earlier.length + 1 + later.length := by
    simp only [ofText, lines, List.size_toArray, List.length_append, List.length_cons]
    omega
  have number : countThrough (ofText (before ++ after)) (Text.bytes before)
      (earlier.length + 1 + later.length) = earlier.length + 1 := by
    rw [ofText, lines]
    refine countThrough_eq reached (fun next member => ?_) (Nat.le_refl _)
    have after := behind next member
    omega
  have found : (ofText (before ++ after)).lines[earlier.length]? = some line := by
    simp only [ofText, lines, List.getElem?_toArray,
      List.getElem?_append_right (Nat.le_refl _), Nat.sub_self, List.getElem?_cons_zero]
  have cut : Text.splitAt? (Text.bytes before - line.start) line.text = some (front, back) :=
    Text.splitAt?_eq_some_iff.mpr ⟨textIs, by omega⟩
  rw [Nat.zero_add] at positionIs
  unfold position?
  simp only [size, number, Nat.add_sub_cancel, found, cut, Option.bind_eq_bind,
    Option.bind_some, Option.pure_def, ← positionIs]
  rfl

end LineTable

end ClassHoist
