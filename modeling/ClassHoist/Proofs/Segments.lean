import ClassHoist.Proofs.Positions
import ClassHoist.Proofs.Renaming
import ClassHoist.Proofs.Splice
import ClassHoist.SourceMap.Encoding

/-! # The segments of an edited text

The segments of a map are those of the characters of the output, one after the other: a copied
character has one, and so has every marked character of a replacement (`segments_encode`). They
come in strictly increasing order, so a position is looked up at the segment that stands last
before it (`Encoding.lookup?_eq`). Renaming marks in the output changes none of this.
-/

namespace ClassHoist

/-- An underscore takes as much room as a colon. -/
theorem advance_underscore (position : Position) :
    position.advance '_' = position.advance ':' := rfl

/-- Renaming moves no character. -/
theorem advanceText_underscored (position : Position) (names : List Text) (seen text : Text) :
    position.advanceText (underscored names seen text) = position.advanceText text := by
  induction text generalizing position seen with
  | nil => rfl
  | cons c rest ih =>
    rw [underscored, Position.advanceText_cons, Position.advanceText_cons, ih]
    split
    · next both => rw [both.1, advance_underscore]
    · rfl

namespace SourceMap

/-- The segments of the character of an output that stands at a position. -/
def Cell.segments (source : Text) (target : Position) (cell : Cell) : List Segment :=
  match cell.origin with
  | .copied offset =>
    if cell.char = '\n' then []
    else ((LineTable.ofText source).position? offset).toList.map fun origin => ⟨target, origin⟩
  | .replaced start true =>
    ((LineTable.ofText source).position? start).toList.map fun origin => ⟨target, origin⟩
  | .replaced _ false => []
  | .inserted => []

/-- The segments of the characters of an output that start at a position. -/
def segmentsFrom (source : Text) (target : Position) : List Cell → List Segment
  | [] => []
  | cell :: rest =>
    cell.segments source target ++ segmentsFrom source (target.advance cell.char) rest

/-- The character comes from where it says in the source. -/
def Cell.FitsIn (source : Text) (cell : Cell) : Prop :=
  match cell.origin with
  | .copied offset => Text.Stands source offset (offset + cell.char.utf8Size) [cell.char]
  | .replaced start _ => Text.isBoundary source start = true
  | .inserted => True

/-- The segments of cells are those of the first ones, then those of the others further on. -/
theorem segmentsFrom_append (source : Text) (target : Position) (first second : List Cell) :
    segmentsFrom source target (first ++ second) =
      segmentsFrom source target first ++
        segmentsFrom source (target.advanceText (first.map Cell.char)) second := by
  induction first generalizing target with
  | nil => rfl
  | cons cell rest ih =>
    rw [List.cons_append, segmentsFrom, segmentsFrom, ih, List.append_assoc]
    rfl

/-- Inserted text has no segments. -/
theorem segmentsFrom_insertedCells (source : Text) (target : Position) (text : Text) :
    segmentsFrom source target (insertedCells text) = [] := by
  induction text generalizing target with
  | nil => rfl
  | cons c rest ih =>
    rw [insertedCells, List.map_cons, segmentsFrom, ← insertedCells, ih]
    rfl

/-- The segments of copied text. -/
theorem segmentsFrom_copiedCells (before text after : Text) (first : Bool) (target : Position) :
    segmentsFrom (before ++ (text ++ after)) target (copiedCells (Text.bytes before) text) =
      copiedSegments true first target (Position.advanceText ⟨0, 0⟩ before) text := by
  induction text generalizing before first target with
  | nil => rfl
  | cons c rest ih =>
    have place := LineTable.position?_ofText before (c :: rest ++ after)
    have later := ih (before ++ [c]) (c == '\n') (target.advance c)
    have same : before ++ [c] ++ (rest ++ after) = before ++ (c :: rest ++ after) := by
      rw [List.append_assoc]
      rfl
    rw [same, Text.bytes_append, Text.bytes_cons, Text.bytes_nil, Nat.add_zero,
      Position.advanceText_append] at later
    rw [copiedCells, segmentsFrom, copiedSegments, later]
    unfold Cell.segments
    simp only [place, true_or, and_true, Option.toList_some, List.map_cons, List.map_nil]
    by_cases feed : c = '\n'
    · rw [if_pos feed, if_neg fun other => other feed]
      rfl
    · rw [if_neg feed, if_pos feed]
      rfl

/-- A line feed that is not the last character begins a later line. -/
theorem laterLines_feed {rest : Text} (nonempty : rest ≠ []) :
    laterLines ('\n' :: rest) = laterLines rest + 1 := by
  unfold laterLines
  simp only [List.count_cons_self, List.getLast?_cons]
  obtain ⟨last, isLast⟩ := Option.ne_none_iff_exists'.mp (mt List.getLast?_eq_none_iff.mp nonempty)
  rw [isLast, Option.getD_some]
  by_cases feed : last = '\n'
  · subst feed
    have counted := List.count_pos_iff.mpr (List.mem_of_getLast? isLast)
    rw [if_pos rfl, if_pos rfl]
    omega
  · rw [if_neg (by simpa using feed), if_neg (by simpa using feed)]

/-- Any other character begins no later line. -/
theorem laterLines_cons {c : Char} (rest : Text) (notFeed : c ≠ '\n') :
    laterLines (c :: rest) = laterLines rest := by
  unfold laterLines
  rw [List.count_cons_of_ne notFeed, List.getLast?_cons]
  cases isLast : rest.getLast? with
  | none =>
    rw [List.getLast?_eq_none_iff.mp isLast, Option.getD_none, if_neg (by simpa using notFeed),
      if_neg (by simp)]
  | some last => rw [Option.getD_some]

/-- Renaming changes no lines. -/
theorem laterLines_underscored (names : List Text) (seen text : Text) :
    laterLines (underscored names seen text) = laterLines text := by
  have ends (names : List Text) (seen text : Text) :
      underscored names seen text = [] ↔ text = [] := by
    rw [← Text.bytes_eq_zero, bytes_underscored, Text.bytes_eq_zero]
  induction text generalizing seen with
  | nil => rfl
  | cons c rest ih =>
    rw [underscored]
    by_cases feed : c = '\n'
    · subst feed
      rw [if_neg (by simp)]
      by_cases last : rest = []
      · rw [last]
        rfl
      · rw [laterLines_feed last, laterLines_feed fun none => last ((ends _ _ _).mp none), ih]
    · rw [laterLines_cons rest feed, laterLines_cons, ih]
      split
      · decide
      · exact feed

/-- The segments of a replacement, or of what is left of one. -/
theorem segmentsFrom_replacedCells {source : Text} {start : Nat} {origin : Position}
    (found : (LineTable.ofText source).position? start = some origin) (marked : Bool)
    (target : Position) (text : Text) :
    segmentsFrom source target (replacedCells start marked text) =
      (if marked = true ∧ text ≠ [] then [⟨target, origin⟩] else []) ++
        (List.range (laterLines text)).map fun number => ⟨⟨target.line + 1 + number, 0⟩, origin⟩ := by
  induction text generalizing marked target with
  | nil => simp [replacedCells, segmentsFrom, laterLines]
  | cons c rest ih =>
    rw [replacedCells, segmentsFrom, ih]
    have here : Cell.segments source target ⟨c, .replaced start marked⟩ =
        if marked = true ∧ c :: rest ≠ [] then [⟨target, origin⟩] else [] := by
      unfold Cell.segments
      cases marked with
      | true => simp only [found, Option.toList_some, List.map_cons, List.map_nil, ne_eq,
          reduceCtorEq, not_false_eq_true, and_self, ↓reduceIte]
      | false => simp only [Bool.false_eq_true, false_and, ↓reduceIte]
    rw [here]
    congr 1
    by_cases feed : c = '\n'
    · subst feed
      by_cases last : rest = []
      · simp [last, laterLines]
      · rw [laterLines_feed last, if_pos ⟨beq_self_eq_true _, last⟩, List.range_succ_eq_map,
          List.map_cons, List.map_map]
        rw [List.cons_append, List.nil_append]
        congr 1
        refine List.map_congr_left fun number _ => ?_
        simp only [Position.advance, ↓reduceIte, Function.comp_apply, Nat.succ_eq_add_one,
          Segment.mk.injEq, Position.mk.injEq, and_true]
        omega
    · rw [laterLines_cons rest feed, if_neg (by simp [feed]), List.nil_append]
      simp only [Position.advance, feed, ↓reduceIte]

/-- Copied text stands in the source where its characters do. -/
theorem stands_of_copiedCells {source text : Text} {start : Nat} (nonempty : text ≠ [])
    (fits : ∀ cell ∈ copiedCells start text, cell.FitsIn source) :
    Text.Stands source start (start + Text.bytes text) text := by
  induction text generalizing start with
  | nil => exact absurd rfl nonempty
  | cons c rest ih =>
    obtain ⟨before, after, whole, startIs, -⟩ := fits ⟨c, .copied start⟩ List.mem_cons_self
    by_cases last : rest = []
    · subst last
      exact ⟨before, after, whole, startIs, rfl⟩
    · obtain ⟨before', after', whole', startIs', -⟩ :=
        ih last fun cell member => fits cell (List.mem_cons_of_mem _ member)
      have same : (before ++ [c]) ++ after = before' ++ (rest ++ after') := by
        rw [← whole', whole, List.append_assoc]
      obtain ⟨rfl, rfl⟩ := Text.append_inj_of_bytes same (by
        rw [Text.bytes_append, startIs, startIs', Text.bytes_cons, Text.bytes_nil, Nat.add_zero])
      exact ⟨before, after', by rw [whole]; rfl, startIs, rfl⟩

/-- The segments of a piece of an output that starts at a position. -/
def Piece.segments (everyCharacter : Bool) (source : Text) (target : Position) :
    Piece → List Segment
  | .copied start text =>
    ((LineTable.ofText source).position? start).toList.flatMap fun origin =>
      copiedSegments everyCharacter true target origin text
  | .replaced span text =>
    if text.isEmpty then []
    else
      ((LineTable.ofText source).position? span.start).toList.flatMap fun origin =>
        replacedSegments target origin text
  | .inserted _ => []

/-- The segments of the pieces of an output that start at a position. -/
def piecesSegments (everyCharacter : Bool) (source : Text) (target : Position) :
    List Piece → List Segment
  | [] => []
  | piece :: rest =>
    piece.segments everyCharacter source target ++
      piecesSegments everyCharacter source (target.advanceText piece.text) rest

section Encode

variable {source code : Text} {names : List Text}

/-- The segments of the mapping of one piece, whose renamed text stands in the code. -/
theorem segments_mapping (everyCharacter : Bool) {piece : Piece}
    (fits : ∀ cell ∈ piece.cells, cell.FitsIn source) (front seen back : Text)
    (codeIs : code = front ++ (underscored names seen piece.text ++ back)) :
    (Trace.mapping? (Text.bytes front) piece).toList.flatMap (fun mapping =>
        mapping.segments everyCharacter source code (LineTable.ofText source)
          (LineTable.ofText code)) =
      piece.segments everyCharacter source (Position.advanceText ⟨0, 0⟩ front) := by
  have target := LineTable.position?_ofText front (underscored names seen piece.text ++ back)
  rw [← codeIs] at target
  cases piece with
  | inserted text => rfl
  | copied start text =>
    by_cases empty : text = []
    · subst empty
      exact (List.flatMap_eq_nil_iff.mpr fun _ _ => rfl).symm
    · obtain ⟨before, after, whole, startIs, -⟩ := stands_of_copiedCells empty fits
      have origin := LineTable.position?_ofText before (text ++ after)
      rw [← whole, startIs] at origin
      have part : source.slice start (start + Text.bytes text) = text :=
        Text.slice_of_eq whole startIs rfl
      have isEmpty : text.isEmpty = false := List.isEmpty_eq_false_iff.mpr empty
      simp only [Trace.mapping?, isEmpty, Bool.false_eq_true, ↓reduceIte, Option.toList_some,
        List.flatMap_cons, List.flatMap_nil, List.append_nil, Mapping.segments, target, origin, part,
        Piece.segments]
  | replaced span text =>
    cases text with
    | nil => rfl
    | cons c rest =>
      obtain ⟨before, after, whole, startIs⟩ :=
        Text.isBoundary_iff.mp (fits ⟨c, .replaced span.start true⟩ List.mem_cons_self)
      have origin := LineTable.position?_ofText before after
      rw [← whole, startIs] at origin
      have part : code.slice (Text.bytes front) (Text.bytes front + Text.bytes (c :: rest)) =
          underscored names seen (c :: rest) :=
        Text.slice_of_eq codeIs rfl
          (congrArg (Text.bytes front + ·) (bytes_underscored names seen (c :: rest)).symm)
      simp only [Trace.mapping?, List.isEmpty_cons, Bool.false_eq_true, ↓reduceIte,
        Option.toList_some, List.flatMap_cons, List.flatMap_nil, List.append_nil, Mapping.segments,
        target, origin, part, Piece.segments, replacedSegments, laterLines_underscored]

/-- The mappings of pieces have their segments, also where the output is renamed. -/
theorem segments_mappings (everyCharacter : Bool) (pieces : List Piece)
    (fits : ∀ cell ∈ pieces.flatMap Piece.cells, cell.FitsIn source) (front seen : Text)
    (codeIs : code = front ++ underscored names seen (pieces.flatMap Piece.text)) :
    (mappingsFrom (Text.bytes front) pieces).flatMap (fun mapping =>
        mapping.segments everyCharacter source code (LineTable.ofText source)
          (LineTable.ofText code)) =
      piecesSegments everyCharacter source (Position.advanceText ⟨0, 0⟩ front) pieces := by
  induction pieces generalizing front seen with
  | nil => rfl
  | cons piece rest ih =>
    rw [List.flatMap_cons, underscored_append] at codeIs
    have one := segments_mapping everyCharacter
      (fun cell member => fits cell (List.mem_append_left _ member)) front seen _ codeIs
    have others := ih (fun cell member => fits cell (List.mem_append_right _ member))
      (front ++ underscored names seen piece.text) (piece.text.reverse ++ seen)
      (by rw [codeIs, List.append_assoc])
    rw [Text.bytes_append, bytes_underscored, Position.advanceText_append,
      advanceText_underscored] at others
    rw [mappingsFrom, List.flatMap_append, one, others, piecesSegments]

/-- The segments of the map of an output, in which marks may have been renamed, are those of its
pieces. -/
theorem segments_encode_pieces (everyCharacter : Bool) (pieces : List Piece)
    (fits : ∀ cell ∈ pieces.flatMap Piece.cells, cell.FitsIn source) (file : Option String)
    (keep : Bool) :
    ((Table.ofPieces pieces).encode source (underscored names [] (pieces.flatMap Piece.text))
        ⟨file, everyCharacter, keep⟩).segments =
      piecesSegments everyCharacter source ⟨0, 0⟩ pieces :=
  segments_mappings everyCharacter pieces fits [] [] rfl

/-- If every character has a segment, those of a piece are those of its characters. -/
theorem Piece.segments_true {piece : Piece} (fits : ∀ cell ∈ piece.cells, cell.FitsIn source)
    (target : Position) :
    piece.segments true source target = segmentsFrom source target piece.cells := by
  cases piece with
  | inserted text => exact (segmentsFrom_insertedCells source target text).symm
  | copied start text =>
    by_cases empty : text = []
    · subst empty
      exact List.flatMap_eq_nil_iff.mpr fun _ _ => rfl
    · obtain ⟨before, after, whole, rfl, -⟩ := stands_of_copiedCells empty fits
      have origin := LineTable.position?_ofText before (text ++ after)
      rw [← whole] at origin
      simp only [segments, origin, Option.toList_some, List.flatMap_cons, List.flatMap_nil,
        List.append_nil]
      rw [cells, whole]
      exact (segmentsFrom_copiedCells before text after true target).symm
  | replaced span text =>
    cases text with
    | nil => rfl
    | cons c rest =>
      obtain ⟨before, after, whole, startIs⟩ :=
        Text.isBoundary_iff.mp (fits ⟨c, .replaced span.start true⟩ List.mem_cons_self)
      have origin := LineTable.position?_ofText before after
      rw [← whole, startIs] at origin
      simp only [segments, List.isEmpty_cons, Bool.false_eq_true, ↓reduceIte, origin,
        Option.toList_some, List.flatMap_cons, List.flatMap_nil, List.append_nil]
      rw [cells, segmentsFrom_replacedCells origin, replacedSegments,
        if_pos ⟨rfl, List.cons_ne_nil _ _⟩]
      rfl

/-- With a segment for every character, pieces have the segments of their cells. -/
theorem piecesSegments_true {pieces : List Piece}
    (fits : ∀ cell ∈ pieces.flatMap Piece.cells, cell.FitsIn source) (target : Position) :
    piecesSegments true source target pieces =
      segmentsFrom source target (pieces.flatMap Piece.cells) := by
  induction pieces generalizing target with
  | nil => rfl
  | cons piece rest ih =>
    rw [piecesSegments, List.flatMap_cons, segmentsFrom_append, piece.map_char_cells,
      Piece.segments_true fun cell member => fits cell (List.mem_append_left _ member),
      ih fun cell member => fits cell (List.mem_append_right _ member)]

/-- **Segments.** If every character has a segment, those of the map of an output, in which marks
may have been renamed, are those of its characters. -/
theorem segments_encode (pieces : List Piece)
    (fits : ∀ cell ∈ pieces.flatMap Piece.cells, cell.FitsIn source) (file : Option String)
    (keep : Bool) :
    ((Table.ofPieces pieces).encode source (underscored names [] (pieces.flatMap Piece.text))
        ⟨file, true, keep⟩).segments =
      segmentsFrom source ⟨0, 0⟩ (pieces.flatMap Piece.cells) :=
  (segments_encode_pieces true pieces fits file keep).trans (piecesSegments_true fits ⟨0, 0⟩)

end Encode

/-- A segment of a character stands where the character stands in the output. -/
theorem Cell.generated_of_mem_segments {source : Text} {target : Position} {cell : Cell}
    {segment : Segment} (member : segment ∈ cell.segments source target) :
    segment.generated = target := by
  have mapped {found : Option Position}
      (inMap : segment ∈ found.toList.map fun origin => ⟨target, origin⟩) :
      segment.generated = target := by
    obtain ⟨origin, -, rfl⟩ := List.mem_map.mp inMap
    rfl
  unfold segments at member
  split at member
  · split at member
    · cases member
    · exact mapped member
  · exact mapped member
  · cases member
  · cases member

/-- No segment stands before the first character. -/
theorem not_before_of_mem_segmentsFrom {source : Text} {target : Position} {cells : List Cell}
    {segment : Segment} (member : segment ∈ segmentsFrom source target cells) :
    ¬ segment.generated.Before target := by
  induction cells generalizing target with
  | nil => cases member
  | cons cell rest ih =>
    rcases List.mem_append.mp member with here | later
    · rw [Cell.generated_of_mem_segments here]
      exact fun before => before.ne rfl
    · exact fun before => ih later (before.trans (target.before_advance cell.char))

/-- The segments come in strictly increasing order. -/
theorem segmentsFrom_ordered (source : Text) (target : Position) (cells : List Cell) :
    (segmentsFrom source target cells).Pairwise
      fun first second => first.generated.Before second.generated := by
  induction cells generalizing target with
  | nil => exact List.Pairwise.nil
  | cons cell rest ih =>
    have atMostOne : (cell.segments source target).Pairwise
        fun first second => first.generated.Before second.generated := by
      have mapped (found : Option Position) :
          (found.toList.map fun origin => (⟨target, origin⟩ : Segment)).Pairwise
            fun first second => first.generated.Before second.generated := by
        cases found with
        | none => exact List.Pairwise.nil
        | some origin => exact List.pairwise_singleton _ _
      unfold Cell.segments
      split
      · split
        · exact List.Pairwise.nil
        · exact mapped _
      · exact mapped _
      · exact List.Pairwise.nil
      · exact List.Pairwise.nil
    refine List.pairwise_append.mpr ⟨atMostOne, ih _, ?_⟩
    intro first isFirst second isSecond
    rw [Cell.generated_of_mem_segments isFirst]
    exact (target.before_advance cell.char).of_not_before (not_before_of_mem_segmentsFrom isSecond)

/-- **Looking up.** A position is looked up at the segment that stands last at or before it, if it
is on the same line. -/
theorem Encoding.lookup?_eq {encoding : Encoding} {earlier later : List Segment}
    {segment : Segment} {position : Position}
    (split : encoding.segments = earlier ++ segment :: later)
    (ordered : encoding.segments.Pairwise
      fun first second => first.generated.Before second.generated)
    (reached : ¬ position.Before segment.generated)
    (behind : ∀ next ∈ later, position.Before next.generated)
    (line : segment.generated.line = position.line) :
    encoding.lookup? position = some segment.source := by
  have sorted : encoding.segments.mergeSort (fun a b => a.generated.le b.generated) =
      encoding.segments :=
    List.mergeSort_of_pairwise (ordered.imp fun before => before.le)
  have before : ∀ other ∈ earlier, other.generated.Before segment.generated := by
    intro other member
    rw [split] at ordered
    exact (List.pairwise_append.mp ordered).2.2 other member segment List.mem_cons_self
  have passed : ∀ other ∈ earlier, other.generated.Before position := by
    exact fun other member => (before other member).of_not_before reached
  have stops : later.takeWhile (·.generated.le position) = [] := by
    cases later with
    | nil => rfl
    | cons next rest =>
      refine List.takeWhile_cons_of_neg fun reached => ?_
      exact Position.le_iff_not_before.mp reached (behind next List.mem_cons_self)
  -- The segment stands at the position, or it is the last one in front of it.
  have closest : ((encoding.segments.find? (·.generated == position)).or
      (encoding.segments.takeWhile (·.generated.le position)).getLast?) = some segment := by
    rw [split, List.find?_append, List.find?_eq_none.mpr, Option.none_or]
    · by_cases exactly : segment.generated = position
      · rw [List.find?_cons_of_pos (by rw [beq_iff_eq]; exact exactly), Option.some_or]
      · rw [List.find?_cons_of_neg (by rw [beq_iff_eq]; exact exactly), List.find?_eq_none.mpr,
          Option.none_or, List.takeWhile_append_of_pos, List.takeWhile_cons_of_pos, stops,
          List.getLast?_concat]
        · exact Position.le_iff_not_before.mpr reached
        · exact fun other member => (passed other member).le
        · intro next member
          rw [beq_iff_eq]
          exact fun same => (behind next member).ne same.symm
    · intro other member
      rw [beq_iff_eq]
      exact (passed other member).ne
  have sameLine : (guard (segment.generated.line == position.line) : Option Unit) = some () :=
    if_pos (beq_iff_eq.mpr line)
  rw [lookup?, sorted, closest, Option.bind_eq_bind, Option.bind_some, sameLine]
  rfl

end SourceMap

open SourceMap

namespace Patch

variable {α : Type} {patch : Patch}

/-- What goes through a part of the source writes comes from one of its characters. -/
theorem exists_of_mem_spliced {inserted : Nat → List α} {written : Nat → Char → List α}
    {offset : Nat} {text : Text} {entry : α}
    (member : entry ∈ spliced inserted written offset text) :
    ∃ before c after, text = before ++ c :: after ∧
      (entry ∈ inserted (offset + Text.bytes before) ∨
        entry ∈ written (offset + Text.bytes before) c) := by
  induction text generalizing offset with
  | nil => cases member
  | cons c rest ih =>
    rcases List.mem_append.mp member with here | member
    · exact ⟨[], c, rest, rfl, .inl here⟩
    · rcases List.mem_append.mp member with here | later
      · exact ⟨[], c, rest, rfl, .inr here⟩
      · obtain ⟨before, d, after, rfl, found⟩ := ih later
        refine ⟨c :: before, d, after, rfl, ?_⟩
        rw [Text.bytes_cons, ← Nat.add_assoc]
        exact found

/-- An inserted character comes from nowhere in the source. -/
theorem fits_of_mem_insertedCells {source text : Text} {cell : Cell}
    (member : cell ∈ insertedCells text) : cell.FitsIn source := by
  obtain ⟨c, -, rfl⟩ := List.mem_map.mp member
  exact trivial

/-- A character of a replacement comes from the start of the range. -/
theorem fits_of_mem_replacedCells {source text : Text} {start : Nat} {marked : Bool} {cell : Cell}
    (boundary : Text.isBoundary source start = true)
    (member : cell ∈ replacedCells start marked text) : cell.FitsIn source := by
  induction text generalizing marked with
  | nil => cases member
  | cons c rest ih =>
    rcases List.mem_cons.mp member with rfl | later
    · exact boundary
    · exact ih later

/-- The characters of the edited text come from where they say. -/
theorem Sound.fits (sound : patch.Sound) :
    ∀ cell ∈ patch.pieces.flatMap Piece.cells, cell.FitsIn patch.source := by
  intro cell member
  rw [sound.cells_pieces] at member
  rcases List.mem_append.mp member with inSource | added
  · obtain ⟨before, c, after, whole, found⟩ := exists_of_mem_spliced inSource
    rw [Nat.zero_add] at found
    rcases found with isInserted | isWritten
    · exact fits_of_mem_insertedCells isInserted
    · unfold writtenCells at isWritten
      split at isWritten
      case h_1 edit found =>
        split at isWritten
        · exact fits_of_mem_replacedCells
            (sound.bounded edit (List.mem_of_find?_eq_some found)).1 isWritten
        · cases isWritten
      case h_2 =>
        obtain rfl := List.mem_singleton.mp isWritten
        exact ⟨before, after, whole, rfl, rfl⟩
  · rcases List.mem_append.mp added with atEnd | isAppended
    · exact fits_of_mem_insertedCells atEnd
    · exact fits_of_mem_insertedCells isAppended

end Patch

end ClassHoist
