import ClassHoist.Proofs.Edits

/-! # The edited text, character by character

Every character of an edited text is copied from a character of the source, belongs to a
replacement or was inserted (`Cell`). The pieces of a patch whose edits fit together are, read
character by character, what goes through the source from front to back: at each offset the text
inserted there, and then the character itself, or the replacement of the range that starts there,
or nothing inside of such a range (`Patch.Sound.cells_pieces`).
-/

namespace ClassHoist

namespace SourceMap

/-- Where a character of an output comes from: it is the source character at an offset, it belongs
to a replacement for the source from an offset on, or it is not in the source. The first character
of a replacement and of each later line in it is marked. -/
inductive Origin where
  | copied (offset : Nat)
  | replaced (start : Nat) (marked : Bool)
  | inserted
  deriving DecidableEq, Repr

/-- A character of an output and where it comes from. -/
structure Cell where
  char : Char
  origin : Origin
  deriving DecidableEq, Repr

/-- The characters of source text copied from an offset on. -/
def copiedCells (offset : Nat) : Text → List Cell
  | [] => []
  | c :: rest => ⟨c, .copied offset⟩ :: copiedCells (offset + c.utf8Size) rest

/-- The characters of a replacement. -/
def replacedCells (start : Nat) (marked : Bool) : Text → List Cell
  | [] => []
  | c :: rest => ⟨c, .replaced start marked⟩ :: replacedCells start (c == '\n') rest

/-- The characters of inserted text. -/
def insertedCells (text : Text) : List Cell := text.map fun c => ⟨c, .inserted⟩

/-- The characters of a piece. -/
def Piece.cells : Piece → List Cell
  | .copied start text => copiedCells start text
  | .replaced span text => replacedCells span.start true text
  | .inserted text => insertedCells text

/-- Copied cells read as the text they are copied from. -/
theorem map_char_copiedCells (offset : Nat) (text : Text) :
    (copiedCells offset text).map Cell.char = text := by
  induction text generalizing offset with
  | nil => rfl
  | cons c rest ih => exact congrArg (c :: ·) (ih _)

/-- The cells of a replacement read as the replacement. -/
theorem map_char_replacedCells (start : Nat) (marked : Bool) (text : Text) :
    (replacedCells start marked text).map Cell.char = text := by
  induction text generalizing marked with
  | nil => rfl
  | cons c rest ih => exact congrArg (c :: ·) (ih _)

/-- Inserted cells read as the text inserted. -/
theorem map_char_insertedCells (text : Text) : (insertedCells text).map Cell.char = text := by
  rw [insertedCells, List.map_map]
  exact List.map_id text

/-- The cells of a piece read as its text. -/
theorem Piece.map_char_cells (piece : Piece) : piece.cells.map Cell.char = piece.text := by
  cases piece with
  | copied start text => exact map_char_copiedCells start text
  | replaced span text => exact map_char_replacedCells _ _ text
  | inserted text => exact map_char_insertedCells text

end SourceMap

open SourceMap

namespace Patch

variable {α β : Type}

/-- Go through a part of the source that starts at an offset: at each character, first what is
inserted there and then what is written for it. -/
def spliced (inserted : Nat → List α) (written : Nat → Char → List α) : Nat → Text → List α
  | _, [] => []
  | offset, c :: rest =>
    inserted offset ++ (written offset c ++ spliced inserted written (offset + c.utf8Size) rest)

section Spliced

variable {inserted inserted' : Nat → List α} {written written' : Nat → Char → List α}
  {offset : Nat} {text : Text}

/-- Two parts of a source are spliced one after the other. -/
theorem spliced_append (first second : Text) :
    spliced inserted written offset (first ++ second) =
      spliced inserted written offset first ++
        spliced inserted written (offset + Text.bytes first) second := by
  induction first generalizing offset with
  | nil => rfl
  | cons c rest ih =>
    simp only [List.cons_append, spliced, Text.bytes_cons, ih, List.append_assoc, Nat.add_assoc]

/-- A splice may be mapped character by character. -/
theorem map_spliced (f : α → β) :
    (spliced inserted written offset text).map f =
      spliced (fun offset => (inserted offset).map f) (fun offset c => (written offset c).map f)
        offset text := by
  induction text generalizing offset with
  | nil => rfl
  | cons c rest ih => simp only [spliced, List.map_append, ih]

/-- Only what is inserted and written between the start and the end of a part counts. -/
theorem spliced_congr
    (sameInserted : ∀ place, offset ≤ place → place < offset + Text.bytes text →
      inserted place = inserted' place)
    (sameWritten : ∀ place, offset ≤ place → place < offset + Text.bytes text →
      written place = written' place) :
    spliced inserted written offset text = spliced inserted' written' offset text := by
  induction text generalizing offset with
  | nil => rfl
  | cons c rest ih =>
    have positive := c.utf8Size_pos
    rw [Text.bytes_cons] at sameInserted sameWritten
    rw [spliced, spliced, sameInserted offset (Nat.le_refl _) (by omega),
      sameWritten offset (Nat.le_refl _) (by omega), ih]
    · exact fun place from_ upTo => sameInserted place (by omega) (by omega)
    · exact fun place from_ upTo => sameWritten place (by omega) (by omega)

/-- A part without insertions that writes nothing is spliced to nothing. -/
theorem spliced_eq_nil
    (noneInserted : ∀ place, offset ≤ place → place < offset + Text.bytes text →
      inserted place = [])
    (noneWritten : ∀ place c, offset ≤ place → place < offset + Text.bytes text →
      written place c = []) :
    spliced inserted written offset text = [] := by
  induction text generalizing offset with
  | nil => rfl
  | cons c rest ih =>
    have positive := c.utf8Size_pos
    rw [Text.bytes_cons] at noneInserted noneWritten
    rw [spliced, noneInserted offset (Nat.le_refl _) (by omega),
      noneWritten offset c (Nat.le_refl _) (by omega), ih]
    · rfl
    · exact fun place from_ upTo => noneInserted place (by omega) (by omega)
    · exact fun place c from_ upTo => noneWritten place c (by omega) (by omega)

end Spliced

/-- The text inserted at an offset. -/
def insertedAt (insertions : List Insertion) (offset : Nat) : Text :=
  (insertions.filter (·.offset == offset)).flatMap Insertion.text

/-- What is written for the source character at an offset: the character, or the replacement of the
range that starts there, or nothing further inside of a range. -/
def writtenAt (edits : List Overwrite) (offset : Nat) (c : Char) : Text :=
  match edits.find? fun edit => edit.start ≤ offset && offset < edit.stop with
  | some edit => if edit.start = offset then edit.text else []
  | none => [c]

/-- A source with ranges overwritten and text inserted, put together from front to back. -/
def splice (edits : List Overwrite) (insertions : List Insertion) (source : Text) : Text :=
  spliced (insertedAt insertions) (writtenAt edits) 0 source ++
    insertedAt insertions (Text.bytes source)

/-- What is written for a source character, with where it comes from. -/
def writtenCells (edits : List Overwrite) (offset : Nat) (c : Char) : List Cell :=
  match edits.find? fun edit => edit.start ≤ offset && offset < edit.stop with
  | some edit => if edit.start = offset then replacedCells edit.start true edit.text else []
  | none => [⟨c, .copied offset⟩]

/-- The characters inserted at an offset. -/
def insertedCellsAt (insertions : List Insertion) (offset : Nat) : List Cell :=
  insertedCells (insertedAt insertions offset)

/-- A part of the source after the edits, from what is inserted before its first character up to
what is written for its last. -/
def splicedCells (edits : List Overwrite) (insertions : List Insertion) (offset : Nat)
    (text : Text) : List Cell :=
  spliced (insertedCellsAt insertions) (writtenCells edits) offset text

/-- The cells of two parts are spliced one after the other. -/
theorem splicedCells_append (edits : List Overwrite) (insertions : List Insertion) (offset : Nat)
    (first second : Text) :
    splicedCells edits insertions offset (first ++ second) =
      splicedCells edits insertions offset first ++
        splicedCells edits insertions (offset + Text.bytes first) second :=
  spliced_append first second

/-- At a character, first come the cells inserted there and then those written for it. -/
theorem splicedCells_cons (edits : List Overwrite) (insertions : List Insertion) (offset : Nat)
    (c : Char) (rest : Text) :
    splicedCells edits insertions offset (c :: rest) =
      insertedCellsAt insertions offset ++ (writtenCells edits offset c ++
        splicedCells edits insertions (offset + c.utf8Size) rest) := rfl

/-- The cells of a splice read as the spliced text. -/
theorem map_char_splicedCells (edits : List Overwrite) (insertions : List Insertion)
    (offset : Nat) (text : Text) :
    (splicedCells edits insertions offset text).map Cell.char =
      spliced (insertedAt insertions) (writtenAt edits) offset text := by
  rw [splicedCells, map_spliced]
  refine spliced_congr (fun place _ _ => map_char_insertedCells _) fun place _ _ => ?_
  funext c
  unfold writtenCells writtenAt
  split
  · split
    · exact map_char_replacedCells _ _ _
    · rfl
  · rfl

section Pieces

variable {source part : Text} {start stop : Nat} {entries : List Insertion}

/-- Where no insertion is, nothing is inserted. -/
theorem insertedAt_eq_nil {offset : Nat} (none : ∀ entry ∈ entries, entry.offset ≠ offset) :
    insertedAt entries offset = [] := by
  have empty : entries.filter (·.offset == offset) = [] := by
    refine List.filter_eq_nil_iff.mpr fun entry member => ?_
    rw [beq_iff_eq]
    exact none entry member
  rw [insertedAt, empty]
  rfl

/-- One more insertion adds its text at its own offset only. -/
theorem insertedAt_cons (entry : Insertion) (entries : List Insertion) (offset : Nat) :
    insertedAt (entry :: entries) offset =
      (if entry.offset = offset then entry.text else []) ++ insertedAt entries offset := by
  unfold insertedAt
  rw [List.filter_cons]
  by_cases same : entry.offset = offset
  · rw [if_pos (beq_iff_eq.mpr same), if_pos same]
    rfl
  · rw [if_neg (by rwa [beq_iff_eq]), if_neg same]
    rfl

/-- One more insertion adds its cells at its own offset only. -/
theorem insertedCellsAt_cons (entry : Insertion) (entries : List Insertion) (offset : Nat) :
    insertedCellsAt (entry :: entries) offset =
      (if entry.offset = offset then insertedCells entry.text else []) ++
        insertedCellsAt entries offset := by
  rw [insertedCellsAt, insertedAt_cons, insertedCells, List.map_append]
  split <;> rfl

/-- Insertions elsewhere may be left out. -/
theorem insertedAt_filter {keeps : Insertion → Bool} {offset : Nat}
    (kept : ∀ entry ∈ entries, entry.offset = offset → keeps entry = true) :
    insertedAt (entries.filter keeps) offset = insertedAt entries offset := by
  unfold insertedAt
  rw [List.filter_filter]
  congr 1
  refine List.filter_congr fun entry member => ?_
  by_cases same : entry.offset = offset
  · rw [kept entry member same, Bool.and_true]
  · rw [beq_eq_false_iff_ne.mpr same, Bool.false_and]

/-- What is inserted at the start of a part comes before all else. -/
theorem spliced_insertedCellsAt_cons {entry : Insertion} {written : Nat → Char → List Cell}
    (isStop : stop = entry.offset + Text.bytes part) :
    spliced (insertedCellsAt (entry :: entries)) written entry.offset part ++
        insertedCellsAt (entry :: entries) stop =
      insertedCells entry.text ++
        (spliced (insertedCellsAt entries) written entry.offset part ++
          insertedCellsAt entries stop) := by
  cases part with
  | nil =>
    subst isStop
    rw [spliced, spliced, List.nil_append, List.nil_append, insertedCellsAt_cons,
      if_pos (by rfl)]
  | cons c rest =>
    have positive := c.utf8Size_pos
    rw [Text.bytes_cons] at isStop
    have same : spliced (insertedCellsAt (entry :: entries)) written
        (entry.offset + c.utf8Size) rest =
        spliced (insertedCellsAt entries) written (entry.offset + c.utf8Size) rest := by
      refine spliced_congr (fun place from_ _ => ?_) fun _ _ _ => rfl
      rw [insertedCellsAt_cons, if_neg (by omega)]
      rfl
    rw [spliced, spliced, same, insertedCellsAt_cons, if_pos rfl, insertedCellsAt_cons,
      if_neg (by omega)]
    simp only [List.append_assoc, List.nil_append]

/-- A part without insertions is copied. -/
theorem spliced_copied (none : ∀ place, start ≤ place → place < start + Text.bytes part →
      insertedCellsAt entries place = []) :
    spliced (insertedCellsAt entries) (fun place c => [⟨c, .copied place⟩]) start part =
      copiedCells start part := by
  induction part generalizing start with
  | nil => rfl
  | cons c rest ih =>
    have positive := c.utf8Size_pos
    rw [Text.bytes_cons] at none
    rw [spliced, none start (Nat.le_refl _) (by omega), ih]
    · rfl
    · exact fun place from_ upTo => none place (by omega) (by omega)

/-- A part of the source broken by insertions is the part with the insertions at their places. -/
theorem cells_copiedPieces (stands : Text.Stands source start stop part)
    (placed : ∀ entry ∈ entries, Text.isBoundary source entry.offset = true)
    (ordered : entries.Pairwise fun first second => first.offset < second.offset)
    (within : ∀ entry ∈ entries, start ≤ entry.offset ∧ entry.offset ≤ stop) :
    (copiedPieces source start stop entries).flatMap Piece.cells =
      spliced (insertedCellsAt entries) (fun place c => [⟨c, .copied place⟩]) start part ++
        insertedCellsAt entries stop := by
  induction entries generalizing start part with
  | nil =>
    obtain ⟨before, after, whole, startIs, stopIs⟩ := stands
    rw [spliced_copied fun _ _ _ => rfl]
    simp only [copiedPieces, List.flatMap_cons, List.flatMap_nil, Piece.cells,
      Text.slice_of_eq whole startIs stopIs]
    rfl
  | cons entry rest ih =>
    obtain ⟨fromEntry, orderedRest⟩ := List.pairwise_cons.mp ordered
    obtain ⟨from_, upTo⟩ := within entry List.mem_cons_self
    obtain ⟨first, second, rfl, left, right⟩ :=
      stands.split (placed entry List.mem_cons_self) from_ upTo
    have later := ih right (fun other member => placed other (List.mem_cons_of_mem _ member))
      orderedRest fun other member =>
        ⟨Nat.le_of_lt (fromEntry other member), (within other (List.mem_cons_of_mem _ member)).2⟩
    have isStop : stop = entry.offset + Text.bytes second := by
      obtain ⟨-, -, -, -, isStop⟩ := right
      exact isStop
    obtain ⟨before, after, whole, startIs, middleIs⟩ := left
    have head : spliced (insertedCellsAt (entry :: rest)) (fun place c => [⟨c, .copied place⟩])
        start first = copiedCells start first := by
      refine spliced_copied fun place _ beforeEntry => ?_
      rw [insertedCellsAt, insertedAt_eq_nil]
      · rfl
      · intro other member
        rcases List.mem_cons.mp member with rfl | inRest
        · omega
        · have behind := fromEntry other inRest
          omega
    rw [copiedPieces, List.flatMap_cons, List.flatMap_cons, later, spliced_append, head,
      ← middleIs, List.append_assoc, spliced_insertedCellsAt_cons isStop,
      Text.slice_of_eq whole startIs middleIs]
    rfl

/-- A copied part of the source, with the insertions at either end and in between. -/
theorem Sound.cells_copied {patch : Patch} (sound : patch.Sound)
    (stands : Text.Stands patch.source start stop part) :
    (patch.copied start stop).flatMap Piece.cells =
      spliced (insertedCellsAt patch.insertions) (fun place c => [⟨c, .copied place⟩]) start part ++
        insertedCellsAt patch.insertions stop := by
  have stopIs : stop = start + Text.bytes part := by
    obtain ⟨-, -, -, -, stopIs⟩ := stands
    exact stopIs
  have kept : ∀ place, start ≤ place → place ≤ stop →
      insertedCellsAt (patch.insertions.filter fun i => start ≤ i.offset && i.offset ≤ stop) place =
        insertedCellsAt patch.insertions place := by
    intro place from_ upTo
    rw [insertedCellsAt, insertedAt_filter]
    · rfl
    · intro entry _ same
      simp only [same, from_, upTo, decide_true, Bool.and_self]
  unfold copied
  rw [cells_copiedPieces stands, kept stop (by omega) (Nat.le_refl _)]
  · congr 1
    exact spliced_congr (fun place from_ upTo => kept place from_ (by omega)) fun _ _ _ => rfl
  · exact fun entry member => sound.placed entry (List.mem_filter.mp member).1
  · exact sound.ordered.filter _
  · intro entry member
    have inside := (List.mem_filter.mp member).2
    simp only [Bool.and_eq_true, decide_eq_true_eq] at inside
    exact inside

/-- No overwritten range has the character. -/
theorem writtenCells_of_outside {edits : List Overwrite} {place : Nat}
    (outside : ∀ edit ∈ edits, edit.stop ≤ place ∨ place < edit.start) (c : Char) :
    writtenCells edits place c = [⟨c, .copied place⟩] := by
  have none : (edits.find? fun edit => edit.start ≤ place && place < edit.stop) = none := by
    refine List.find?_eq_none.mpr fun edit member inside => ?_
    have lies := outside edit member
    simp only [Bool.and_eq_true, decide_eq_true_eq] at inside
    omega
  rw [writtenCells, none]

/-- Between overwritten ranges the characters are copied, with what is inserted among them. -/
theorem Sound.cells_kept {patch : Patch} (sound : patch.Sound)
    (stands : Text.Stands patch.source start stop part)
    (outside : ∀ edit ∈ patch.overwrites, edit.stop ≤ start ∨ stop ≤ edit.start) :
    (patch.copied start stop).flatMap Piece.cells =
      splicedCells patch.overwrites patch.insertions start part ++
        insertedCellsAt patch.insertions stop := by
  rw [sound.cells_copied stands, splicedCells]
  obtain ⟨-, -, -, -, stopIs⟩ := stands
  congr 1
  refine spliced_congr (fun _ _ _ => rfl) fun place from_ upTo => ?_
  funext c
  refine (writtenCells_of_outside (fun edit member => ?_) c).symm
  exact (outside edit member).imp (fun behind => Nat.le_trans behind from_) fun ahead =>
    Nat.lt_of_lt_of_le (stopIs ▸ upTo) ahead

/-- Ranges that lie apart have no byte in common. -/
theorem Sound.find?_overwrite {patch : Patch} (sound : patch.Sound) {edit : Overwrite}
    (member : edit ∈ patch.overwrites) {place : Nat} (from_ : edit.start ≤ place)
    (upTo : place < edit.stop) :
    (patch.overwrites.find? fun edit => edit.start ≤ place && place < edit.stop) = some edit := by
  obtain ⟨front, back, split⟩ := List.append_of_mem member
  rw [split, List.find?_append, List.find?_eq_none.mpr, Option.none_or,
    List.find?_cons_of_pos]
  · simp only [from_, upTo, decide_true, Bool.and_self]
  · intro other inFront inside
    have apart := sound.apart
    rw [split] at apart
    have before := (List.pairwise_append.mp apart).2.2 other inFront edit List.mem_cons_self
    simp only [Bool.and_eq_true, decide_eq_true_eq] at inside
    omega

/-- An overwritten range of the source becomes its replacement. -/
theorem Sound.splicedCells_overwrite {patch : Patch} (sound : patch.Sound) {edit : Overwrite}
    (member : edit ∈ patch.overwrites)
    (stands : Text.Stands patch.source edit.start edit.stop part) :
    splicedCells patch.overwrites patch.insertions edit.start part =
      insertedCellsAt patch.insertions edit.start ++ replacedCells edit.start true edit.text := by
  have nonempty := sound.nonempty edit member
  obtain ⟨-, -, -, -, stopIs⟩ := stands
  cases part with
  | nil => exact absurd stopIs (by rw [Text.bytes_nil]; omega)
  | cons c rest =>
    have positive := c.utf8Size_pos
    rw [Text.bytes_cons] at stopIs
    have first : writtenCells patch.overwrites edit.start c =
        replacedCells edit.start true edit.text := by
      rw [writtenCells, sound.find?_overwrite member (Nat.le_refl _) nonempty]
      exact if_pos rfl
    rw [splicedCells_cons, first, splicedCells, spliced_eq_nil, List.append_nil]
    · intro place from_ upTo
      rw [insertedCellsAt, insertedAt_eq_nil]
      · rfl
      · intro entry isInsertion same
        have lies := sound.outside entry isInsertion edit member
        omega
    · intro place c' from_ upTo
      rw [writtenCells, sound.find?_overwrite member (by omega) (by omega)]
      exact if_neg (by omega)

/-- The pieces that follow a place between the overwritten ranges. -/
theorem Sound.cells_piecesFrom {patch : Patch} (sound : patch.Sound) {cursor : Nat}
    (done : List Overwrite) {edits : List Overwrite} (split : patch.overwrites = done ++ edits)
    (behind : ∀ edit ∈ done, edit.stop ≤ cursor) (ahead : ∀ edit ∈ edits, cursor ≤ edit.start)
    (stands : Text.Stands patch.source cursor (Text.bytes patch.source) part) :
    (patch.piecesFrom cursor edits).flatMap Piece.cells =
      splicedCells patch.overwrites patch.insertions cursor part ++
        insertedCellsAt patch.insertions (Text.bytes patch.source) := by
  induction edits generalizing cursor done part with
  | nil =>
    rw [piecesFrom]
    refine sound.cells_kept stands fun edit member => .inl (behind edit ?_)
    rwa [split, List.append_nil] at member
  | cons edit rest ih =>
    have member : edit ∈ patch.overwrites := by
      rw [split]
      exact List.mem_append_right _ List.mem_cons_self
    have nonempty := sound.nonempty edit member
    obtain ⟨isStart, isStop⟩ := sound.bounded edit member
    have apart := sound.apart
    rw [split] at apart
    have fromEdit := (List.pairwise_cons.mp (List.pairwise_append.mp apart).2.1).1
    -- The part is what is kept in front of the range, the range, and what lies behind it.
    obtain ⟨first, second, rfl, left, right⟩ :=
      stands.split isStart (ahead edit List.mem_cons_self) (Text.bytes_le_of_isBoundary isStart)
    obtain ⟨middle, last, rfl, inside, after⟩ :=
      right.split isStop (Nat.le_of_lt nonempty) (Text.bytes_le_of_isBoundary isStop)
    have startIs : edit.start = cursor + Text.bytes first := by
      obtain ⟨-, -, -, -, startIs⟩ := left
      exact startIs
    have stopIs : edit.stop = edit.start + Text.bytes middle := by
      obtain ⟨-, -, -, -, stopIs⟩ := inside
      exact stopIs
    have outside : ∀ other ∈ patch.overwrites, other.stop ≤ cursor ∨ edit.start ≤ other.start := by
      intro other isOverwrite
      rw [split] at isOverwrite
      rcases List.mem_append.mp isOverwrite with inDone | inEdits
      · exact .inl (behind other inDone)
      · rcases List.mem_cons.mp inEdits with rfl | inRest
        · exact .inr (Nat.le_refl _)
        · exact .inr (Nat.le_trans (Nat.le_of_lt nonempty) (fromEdit other inRest))
    have behind' : ∀ other ∈ done ++ [edit], other.stop ≤ edit.stop := by
      intro other member
      rcases List.mem_append.mp member with inDone | isIt
      · have before := behind other inDone
        have here := ahead edit List.mem_cons_self
        omega
      · exact Nat.le_of_eq (congrArg Overwrite.stop (List.mem_singleton.mp isIt))
    have later := ih (done ++ [edit]) (by rw [split, List.append_assoc]; rfl) behind' fromEdit after
    rw [piecesFrom, List.flatMap_append, List.flatMap_cons, sound.cells_kept left outside, later,
      splicedCells_append, splicedCells_append, ← startIs, ← stopIs,
      sound.splicedCells_overwrite member inside]
    simp only [Piece.cells, List.append_assoc]

/-- **The edited text, character by character.** -/
theorem Sound.cells_pieces {patch : Patch} (sound : patch.Sound) :
    patch.pieces.flatMap Piece.cells =
      splicedCells patch.overwrites patch.insertions 0 patch.source ++
        (insertedCellsAt patch.insertions (Text.bytes patch.source) ++
          insertedCells patch.appended) := by
  have stands : Text.Stands patch.source 0 (Text.bytes patch.source) patch.source :=
    ⟨[], [], (List.append_nil _).symm, rfl, (Nat.zero_add _).symm⟩
  have whole := sound.cells_piecesFrom [] rfl (by intro edit member; cases member)
    (fun edit _ => Nat.zero_le edit.start) stands
  rw [pieces, List.flatMap_append, whole, List.append_assoc]
  simp only [List.flatMap_cons, List.flatMap_nil, Piece.cells, List.append_nil]

/-- The output reads as the cells of its pieces. -/
theorem output_eq_map_char (patch : Patch) :
    patch.output = (patch.pieces.flatMap Piece.cells).map Cell.char := by
  rw [output, List.map_flatMap]
  exact congrArg (fun f => patch.pieces.flatMap f) (funext fun piece => piece.map_char_cells.symm)

/-- **The edited text.** It is the source with the ranges overwritten and the insertions made, and
then what was appended. -/
theorem Sound.output_eq_splice {patch : Patch} (sound : patch.Sound) :
    patch.output =
      splice patch.overwrites patch.insertions patch.source ++ patch.appended := by
  rw [output_eq_map_char, sound.cells_pieces]
  simp only [List.map_append, map_char_splicedCells, insertedCellsAt, map_char_insertedCells,
    splice, List.append_assoc]

end Pieces

end Patch

end ClassHoist
