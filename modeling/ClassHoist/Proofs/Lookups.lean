import ClassHoist.Proofs.Histories
import ClassHoist.Proofs.Origins
import ClassHoist.Proofs.Segments

/-! # Byte offsets and positions agree

The table of an edited text says where a byte comes from, and its map says the same of the position
of a character. A position is looked up at the segment that stands closest before it, so the proof
finds that segment in the piece of output that holds the character (`closest_copiedSegments`,
`closest_replacedSegments`), carries it over to all pieces (`Closest.ofPieces`) and compares it with
the table (`Patch.lookup?_ofEdits`).
-/

namespace ClassHoist

/-- Each line feed starts a line. -/
theorem line_advanceText (position : Position) (text : Text) :
    (position.advanceText text).line = position.line + text.count '\n' := by
  induction text generalizing position with
  | nil => rfl
  | cons c rest ih =>
    rw [Position.advanceText_cons, ih]
    by_cases feed : c = '\n'
    · rw [feed, List.count_cons_self, Position.advance, if_pos rfl, Nat.add_right_comm]
      rfl
    · rw [List.count_cons_of_ne feed, Position.advance, if_neg feed]

namespace SourceMap

/-- How the output byte at an offset relates to the source. -/
def Table.relation? (table : Table) (generated : Nat) : Option Relation :=
  (table.mappings.find? (·.generated.contains generated)).map Mapping.relation

/-- A segment is the last at or before a position, and on its line. -/
structure Closest (segments : List Segment) (position : Position) (segment : Segment) : Prop where
  last : ∃ earlier later, segments = earlier ++ segment :: later ∧
    ∀ next ∈ later, position.Before next.generated
  reached : ¬ position.Before segment.generated
  line : segment.generated.line = position.line

section Closest

variable {segments : List Segment} {position : Position} {segment : Segment}

/-- The closest segment to a position in order is the one that is looked up. -/
theorem Closest.lookup? {encoding : Encoding} (closest : Closest encoding.segments position segment)
    (ordered : encoding.segments.Pairwise
      fun first second => first.generated.Before second.generated) :
    encoding.lookup? position = some segment.source := by
  obtain ⟨earlier, later, split, behind⟩ := closest.last
  exact Encoding.lookup?_eq split ordered closest.reached behind closest.line

/-- A segment that is reached is the closest if all later ones are behind. -/
theorem Closest.head {later : List Segment} (reached : ¬ position.Before segment.generated)
    (line : segment.generated.line = position.line)
    (behind : ∀ next ∈ later, position.Before next.generated) :
    Closest (segment :: later) position segment :=
  ⟨⟨[], later, rfl, behind⟩, reached, line⟩

/-- Segments in front leave the closest one the closest. -/
theorem Closest.append_left (closest : Closest segments position segment) (front : List Segment) :
    Closest (front ++ segments) position segment := by
  obtain ⟨earlier, later, split, behind⟩ := closest.last
  exact ⟨⟨front ++ earlier, later, by rw [split, List.append_assoc], behind⟩, closest.reached,
    closest.line⟩

/-- Segments behind the position leave the closest one the closest. -/
theorem Closest.append_right (closest : Closest segments position segment) {back : List Segment}
    (after : ∀ next ∈ back, position.Before next.generated) :
    Closest (segments ++ back) position segment := by
  obtain ⟨earlier, later, split, behind⟩ := closest.last
  refine ⟨⟨earlier, later ++ back, ?_, ?_⟩, closest.reached, closest.line⟩
  · rw [split, List.append_assoc, List.cons_append]
  · intro next member
    rcases List.mem_append.mp member with inside | beyond
    · exact behind next inside
    · exact after next beyond

end Closest

section Copied

variable {everyCharacter first : Bool} {target origin : Position} {text : Text}

/-- No segment of copied text stands before it. -/
theorem not_before_of_mem_copiedSegments {segment : Segment}
    (member : segment ∈ copiedSegments everyCharacter first target origin text) :
    ¬ segment.generated.Before target := by
  induction text generalizing first target origin with
  | nil => cases member
  | cons c rest ih =>
    have later (inside : segment ∈ copiedSegments everyCharacter (c == '\n') (target.advance c)
        (origin.advance c) rest) : ¬ segment.generated.Before target :=
      fun before => ih inside (before.trans (target.before_advance c))
    rw [copiedSegments] at member
    split at member
    · rcases List.mem_cons.mp member with rfl | inside
      · exact fun before => before.ne rfl
      · exact later inside
    · exact later member

/-- On the rest of a line no character has a segment, if not every one has. -/
theorem copiedSegments_rest (noFeed : '\n' ∉ text) (after : Text) :
    copiedSegments false false target origin (text ++ after) =
      copiedSegments false false (target.advanceText text) (origin.advanceText text) after := by
  induction text generalizing target origin with
  | nil => rfl
  | cons c rest ih =>
    have notFeed : c ≠ '\n' := fun feed => noFeed (feed ▸ List.mem_cons_self)
    rw [List.cons_append, copiedSegments, beq_eq_false_iff_ne.mpr notFeed,
      ih fun member => noFeed (List.mem_cons_of_mem _ member), if_neg (by simp)]
    rfl

/-- A copied character other than a line feed has its own segment, or else the closest is that of
the first character copied on its line. -/
theorem closest_copiedSegments {c : Char} (notFeed : c ≠ '\n') (before after : Text)
    (marked : everyCharacter = true ∨ first = true ∨ '\n' ∈ before) :
    ∃ segment, Closest (copiedSegments everyCharacter first target origin (before ++ c :: after))
        (target.advanceText before) segment ∧
      segment.source.line = (origin.advanceText before).line ∧
      (everyCharacter = true → segment.source = origin.advanceText before) := by
  induction before generalizing first target origin with
  | nil =>
    have here : everyCharacter = true ∨ first = true :=
      marked.imp_right fun other => other.resolve_right List.not_mem_nil
    rw [List.nil_append, copiedSegments, if_pos ⟨notFeed, here⟩]
    refine ⟨⟨target, origin⟩, Closest.head (fun before => before.ne rfl) rfl ?_, rfl, fun _ => rfl⟩
    exact fun next member =>
      (target.before_advance c).of_not_before (not_before_of_mem_copiedSegments member)
  | cons d rest ih =>
    rw [List.cons_append, copiedSegments]
    by_cases later : everyCharacter = true ∨ (d == '\n') = true ∨ '\n' ∈ rest
    · obtain ⟨segment, closest, found⟩ := ih later
      refine ⟨segment, ?_, found⟩
      split
      · exact closest.append_left [_]
      · exact closest
    · -- Nothing after the first character starts a line, so it has the closest segment.
      rw [not_or, not_or, beq_iff_eq, Bool.not_eq_true] at later
      obtain ⟨coarse, notFeedHere, noFeed⟩ := later
      have noFeeds : '\n' ∉ d :: rest :=
        List.not_mem_cons_of_ne_of_not_mem (Ne.symm notFeedHere) noFeed
      have isFirst : first = true :=
        (marked.resolve_left (by simp [coarse])).resolve_right noFeeds
      rw [if_pos ⟨notFeedHere, .inr isFirst⟩]
      refine ⟨⟨target, origin⟩, Closest.head ?_ ?_ ?_, ?_, ?_⟩
      · intro before
        exact ((target.before_advanceText (List.cons_ne_nil d rest)).trans before).ne rfl
      · rw [Position.advanceText_of_no_feed _ noFeeds]
      · intro next member
        rw [coarse, beq_eq_false_iff_ne.mpr notFeedHere, copiedSegments_rest noFeed,
          copiedSegments, if_neg (by simp), beq_eq_false_iff_ne.mpr notFeed] at member
        exact (Position.before_advance _ c).of_not_before (not_before_of_mem_copiedSegments member)
      · rw [Position.advanceText_of_no_feed _ noFeeds]
      · intro every
        rw [coarse] at every
        cases every

end Copied

/-- A line feed that is not the last character of a replacement starts a line that has a segment. -/
theorem count_le_laterLines (before : Text) {after : Text} (nonempty : after ≠ []) :
    before.count '\n' ≤ laterLines (before ++ after) := by
  unfold laterLines
  simp only [List.count_append]
  split
  case isTrue atEnd =>
    rw [List.getLast?_append, Option.or_of_isSome (List.getLast?_isSome.mpr nonempty)] at atEnd
    have counted := List.count_pos_iff.mpr (List.mem_of_getLast? atEnd)
    omega
  case isFalse => omega

/-- The closest segment to a character of a replacement is that of its line. -/
theorem closest_replacedSegments (target origin : Position) (before : Text) {after : Text}
    (nonempty : after ≠ []) :
    ∃ segment, Closest (replacedSegments target origin (before ++ after))
        (target.advanceText before) segment ∧ segment.source = origin := by
  have line := line_advanceText target before
  have enough := count_le_laterLines before nonempty
  cases feeds : before.count '\n' with
  | zero =>
    have noFeed : '\n' ∉ before := List.count_eq_zero.mp feeds
    refine ⟨⟨target, origin⟩, Closest.head ?_ ?_ ?_, rfl⟩
    · rw [Position.advanceText_of_no_feed _ noFeed]
      unfold Position.Before
      simp only
      omega
    · simp only
      omega
    · intro next member
      obtain ⟨number, -, rfl⟩ := List.mem_map.mp member
      refine .inl ?_
      simp only
      omega
  | succ number =>
    obtain ⟨more, count⟩ := Nat.exists_eq_add_of_le (feeds ▸ enough)
    rw [replacedSegments, count, List.range_add, List.range_succ, List.map_append, List.map_append,
      List.map_map, List.append_assoc, List.map_singleton, List.singleton_append,
      ← List.cons_append]
    refine ⟨⟨⟨target.line + 1 + number, 0⟩, origin⟩, (Closest.head ?_ ?_ ?_).append_left _, rfl⟩
    · unfold Position.Before
      simp only
      omega
    · simp only
      omega
    · intro next member
      obtain ⟨later, -, rfl⟩ := List.mem_map.mp member
      refine .inl ?_
      simp only [Function.comp_apply]
      omega

section Pieces

variable {source : Text} {everyCharacter : Bool}

/-- The segments of pieces are those of the first ones, then those of the others further on. -/
theorem piecesSegments_append (target : Position) (first second : List Piece) :
    piecesSegments everyCharacter source target (first ++ second) =
      piecesSegments everyCharacter source target first ++
        piecesSegments everyCharacter source (target.advanceText (first.flatMap Piece.text))
          second := by
  induction first generalizing target with
  | nil => rfl
  | cons piece rest ih =>
    rw [List.cons_append, piecesSegments, piecesSegments, ih, List.append_assoc, List.flatMap_cons,
      Position.advanceText_append]

/-- Without a segment for every character, some of the segments of copied text are left. -/
theorem copiedSegments_sublist (everyCharacter first : Bool) (target origin : Position)
    (text : Text) :
    (copiedSegments everyCharacter first target origin text).Sublist
      (copiedSegments true first target origin text) := by
  induction text generalizing first target origin with
  | nil => exact List.Sublist.refl _
  | cons c rest ih =>
    have more := ih (c == '\n') (target.advance c) (origin.advance c)
    rw [copiedSegments, copiedSegments]
    by_cases has : c ≠ '\n' ∧ (everyCharacter = true ∨ first = true)
    · rw [if_pos has, if_pos ⟨has.1, .inl rfl⟩]
      exact more.cons_cons _
    · rw [if_neg has]
      split
      · exact more.cons _
      · exact more

/-- A coarse map leaves segments out of the one in which every character has its own. -/
theorem piecesSegments_sublist (everyCharacter : Bool) (source : Text) (target : Position)
    (pieces : List Piece) :
    (piecesSegments everyCharacter source target pieces).Sublist
      (piecesSegments true source target pieces) := by
  induction pieces generalizing target with
  | nil => exact List.Sublist.refl _
  | cons piece rest ih =>
    refine List.Sublist.append ?_ (ih _)
    cases piece with
    | copied start text =>
      simp only [Piece.segments]
      cases (LineTable.ofText source).position? start with
      | none => exact List.Sublist.refl _
      | some origin =>
        rw [Option.toList_some, List.flatMap_singleton, List.flatMap_singleton]
        exact copiedSegments_sublist everyCharacter true target origin text
    | replaced span text => exact List.Sublist.refl _
    | inserted text => exact List.Sublist.refl _

/-- The segments of pieces come in strictly ascending order. -/
theorem piecesSegments_ordered {pieces : List Piece}
    (fits : ∀ cell ∈ pieces.flatMap Piece.cells, cell.FitsIn source) (target : Position) :
    (piecesSegments everyCharacter source target pieces).Pairwise
      fun first second => first.generated.Before second.generated := by
  have every := segmentsFrom_ordered source target (pieces.flatMap Piece.cells)
  rw [← piecesSegments_true fits] at every
  exact every.sublist (piecesSegments_sublist everyCharacter source target pieces)

/-- The segment closest to a character in its piece is the closest of all. -/
theorem Closest.ofPieces {front back : List Piece} {piece : Piece} {before after : Text}
    {target : Position} {segment : Segment}
    (fits : ∀ cell ∈ back.flatMap Piece.cells, cell.FitsIn source)
    (text : piece.text = before ++ after) (nonempty : after ≠ [])
    (closest : Closest
      (piece.segments everyCharacter source (target.advanceText (front.flatMap Piece.text)))
      (target.advanceText (front.flatMap Piece.text ++ before)) segment) :
    Closest (piecesSegments everyCharacter source target (front ++ piece :: back))
      (target.advanceText (front.flatMap Piece.text ++ before)) segment := by
  rw [piecesSegments_append, piecesSegments]
  refine (closest.append_right fun next member => ?_).append_left _
  have inAll := (piecesSegments_sublist everyCharacter source _ back).subset member
  rw [piecesSegments_true fits] at inAll
  have notBefore := not_before_of_mem_segmentsFrom inAll
  rw [text, Position.advanceText_append] at notBefore
  rw [Position.advanceText_append]
  exact (Position.before_advanceText _ nonempty).of_not_before notBefore

/-- A mapping is that of one of the pieces. -/
theorem exists_of_mem_mappingsFrom {offset : Nat} {pieces : List Piece} {mapping : Mapping}
    (member : mapping ∈ mappingsFrom offset pieces) :
    ∃ front piece back, pieces = front ++ piece :: back ∧
      Trace.mapping? (offset + Text.bytes (front.flatMap Piece.text)) piece = some mapping := by
  induction pieces generalizing offset with
  | nil => cases member
  | cons piece rest ih =>
    rcases List.mem_append.mp member with here | later
    · exact ⟨[], piece, rest, rfl, Option.mem_toList.mp here⟩
    · obtain ⟨front, found, back, rfl, mapped⟩ := ih later
      refine ⟨piece :: front, found, back, rfl, ?_⟩
      rw [List.flatMap_cons, Text.bytes_append, ← Nat.add_assoc]
      exact mapped

end Pieces

end SourceMap

open SourceMap

namespace Patch

section Encoded

variable {patch : Patch}

/-- The map of an edited text, with a segment for every character or not. -/
def encoded (patch : Patch) (everyCharacter : Bool) (file : Option String) (keep : Bool) :
    Encoding :=
  patch.table.encode patch.source patch.output ⟨file, everyCharacter, keep⟩

/-- The segments of an encoded patch are those of its pieces. -/
theorem Sound.segments_encoded (sound : patch.Sound) (everyCharacter : Bool)
    (file : Option String) (keep : Bool) :
    (patch.encoded everyCharacter file keep).segments =
      piecesSegments everyCharacter patch.source ⟨0, 0⟩ patch.pieces := by
  have renamed := @segments_encode_pieces patch.source [] everyCharacter patch.pieces sound.fits
    file keep
  rw [underscored_nil_names] at renamed
  exact renamed

/-- A segment closest to a character in its piece is where the character is looked up. -/
theorem Sound.lookup?_piece (sound : patch.Sound) {everyCharacter : Bool} {front back : List Piece}
    {piece : Piece} {before after : Text} {segment : Segment}
    (split : patch.pieces = front ++ piece :: back) (text : piece.text = before ++ after)
    (nonempty : after ≠ [])
    (closest : Closest
      (piece.segments everyCharacter patch.source
        (Position.advanceText ⟨0, 0⟩ (front.flatMap Piece.text)))
      (Position.advanceText ⟨0, 0⟩ (front.flatMap Piece.text ++ before)) segment)
    (file : Option String) (keep : Bool) :
    (patch.encoded everyCharacter file keep).lookup?
        (Position.advanceText ⟨0, 0⟩ (front.flatMap Piece.text ++ before)) =
      some segment.source := by
  have fits := sound.fits
  rw [split, List.flatMap_append, List.flatMap_cons] at fits
  have all := Closest.ofPieces (fun cell member =>
    fits cell (List.mem_append_right _ (List.mem_append_right _ member))) text nonempty closest
  rw [← split, ← sound.segments_encoded everyCharacter file keep] at all
  refine all.lookup? ?_
  rw [sound.segments_encoded]
  exact piecesSegments_ordered sound.fits _

/-- A copied character is looked up at its own segment or at that of its line. -/
theorem Sound.lookup?_copiedPiece (sound : patch.Sound) {front back : List Piece} {start : Nat}
    {before after : Text} {c : Char} {origin : Position}
    (split : patch.pieces = front ++ .copied start (before ++ c :: after) :: back)
    (begins : (LineTable.ofText patch.source).position? start = some origin) (notFeed : c ≠ '\n')
    (everyCharacter : Bool) (file : Option String) (keep : Bool) :
    ∃ segment : Segment,
      (patch.encoded everyCharacter file keep).lookup?
          (Position.advanceText ⟨0, 0⟩ (front.flatMap Piece.text ++ before)) =
        some segment.source ∧
      segment.source.line = (origin.advanceText before).line ∧
      (everyCharacter = true → segment.source = origin.advanceText before) := by
  obtain ⟨segment, closest, found⟩ := @closest_copiedSegments everyCharacter true
    (Position.advanceText ⟨0, 0⟩ (front.flatMap Piece.text)) origin c notFeed before after
    (.inr (.inl rfl))
  rw [← Position.advanceText_append] at closest
  refine ⟨segment, sound.lookup?_piece split rfl (List.cons_ne_nil c after) ?_ file keep, found⟩
  simp only [Piece.segments, begins, Option.toList_some, List.flatMap_singleton]
  exact closest

/-- The piece of output that holds a byte with a source. -/
theorem exists_piece_of_source? {generated original : Nat}
    (boundary : Text.isBoundary patch.output generated = true)
    (found : patch.table.source? generated = some original) :
    ∃ front piece back before c after, patch.pieces = front ++ piece :: back ∧
      piece.text = before ++ c :: after ∧
      patch.output = front.flatMap Piece.text ++ before ++ c :: (after ++ back.flatMap Piece.text) ∧
      generated = Text.bytes (front.flatMap Piece.text ++ before) ∧
      ((∃ start text, piece = .copied start text ∧
          patch.table.relation? generated = some .copied ∧
          original = start + Text.bytes before) ∨
        ∃ span text, piece = .replaced span text ∧
          patch.table.relation? generated = some .replaced ∧ original = span.start) := by
  obtain ⟨mapping, isFirst, sourceIs⟩ := Option.bind_eq_some_iff.mp found
  obtain ⟨front, piece, back, split, mapped⟩ :=
    exists_of_mem_mappingsFrom (List.mem_of_find?_eq_some isFirst)
  rw [Nat.zero_add] at mapped
  obtain ⟨-, generatedIs, kinds⟩ := mapping?_eq_some mapped
  have inside := List.find?_some isFirst
  simp only [generatedIs, Span.contains, Bool.and_eq_true, decide_eq_true_eq] at inside
  have whole : patch.output =
      front.flatMap Piece.text ++ (piece.text ++ back.flatMap Piece.text) := by
    rw [output, split, List.flatMap_append, List.flatMap_cons]
  have stands : Text.Stands patch.output (Text.bytes (front.flatMap Piece.text))
      (Text.bytes (front.flatMap Piece.text) + Text.bytes piece.text) piece.text :=
    ⟨_, _, whole, rfl, rfl⟩
  obtain ⟨before, rest, text, ⟨_, _, _, startIs, here⟩, ⟨_, _, _, _, restIs⟩⟩ :=
    stands.split boundary inside.1 (Nat.le_of_lt inside.2)
  have related : patch.table.relation? generated = some mapping.relation := by
    rw [Table.relation?, isFirst, Option.map_some]
  cases rest with
  | nil =>
    rw [Text.bytes_nil] at restIs
    omega
  | cons c after =>
    refine ⟨front, piece, back, before, c, after, split, text, ?_, ?_, ?_⟩
    · rw [whole, text, List.append_assoc, List.append_assoc, List.cons_append]
    · rw [Text.bytes_append]
      exact here
    · rw [generatedIs] at sourceIs
      rcases kinds with ⟨start, copied, rfl, relation, startIs⟩ |
        ⟨span, replacement, rfl, relation, startIs⟩
      · simp only [relation, startIs, Option.pure_def, Option.some.injEq] at sourceIs
        exact .inl ⟨start, copied, rfl, relation ▸ related, by omega⟩
      · simp only [relation, startIs, Option.pure_def, Option.some.injEq] at sourceIs
        exact .inr ⟨span, replacement, rfl, relation ▸ related, sourceIs.symm⟩

/-- Where a byte with a source is looked up in the map. -/
theorem Sound.lookup?_encoded (sound : patch.Sound) {generated original : Nat}
    (boundary : Text.isBoundary patch.output generated = true)
    (found : patch.table.source? generated = some original) (file : Option String) (keep : Bool) :
    ∃ position origin relation,
      (LineTable.ofText patch.output).position? generated = some position ∧
      (LineTable.ofText patch.source).position? original = some origin ∧
      patch.table.relation? generated = some relation ∧
      (relation = .copied → patch.output.charAt? generated ≠ some '\n' →
        (patch.encoded true file keep).lookup? position = some origin ∧
        ∃ answer, (patch.encoded false file keep).lookup? position = some answer ∧
          answer.line = origin.line) ∧
      (relation = .replaced → ∀ everyCharacter,
        (patch.encoded everyCharacter file keep).lookup? position = some origin) := by
  obtain ⟨front, piece, back, before, c, after, split, text, whole, rfl, kinds⟩ :=
    exists_piece_of_source? boundary found
  have target := LineTable.position?_ofText (front.flatMap Piece.text ++ before)
    (c :: (after ++ back.flatMap Piece.text))
  rw [← whole] at target
  have isThere : patch.output.charAt? (Text.bytes (front.flatMap Piece.text ++ before)) = some c :=
    Text.charAt?_eq_some_iff.mpr ⟨_, _, whole, rfl⟩
  have fits := sound.fits
  rw [split, List.flatMap_append, List.flatMap_cons] at fits
  have fitsHere (cell : Cell) (member : cell ∈ piece.cells) : cell.FitsIn patch.source :=
    fits cell (List.mem_append_right _ (List.mem_append_left _ member))
  -- A byte with a source is copied or belongs to a replacement.
  rcases kinds with ⟨start, copied, rfl, relation, rfl⟩ | ⟨span, replacement, rfl, relation, rfl⟩
  · change copied = _ at text
    subst text
    obtain ⟨lead, rest, sourceIs, rfl, -⟩ := stands_of_copiedCells (by simp) fitsHere
    have begins := LineTable.position?_ofText lead (before ++ c :: after ++ rest)
    have origin := LineTable.position?_ofText (lead ++ before) (c :: after ++ rest)
    rw [List.append_assoc, ← List.append_assoc before, ← sourceIs, Text.bytes_append] at origin
    rw [← sourceIs] at begins
    refine ⟨_, _, .copied, target, origin, relation, fun _ notFeed => ?_,
      fun other => nomatch other⟩
    have notFeed' : c ≠ '\n' := fun feed => notFeed (isThere.trans (congrArg some feed))
    obtain ⟨fine, fineIs, -, same⟩ := sound.lookup?_copiedPiece split begins notFeed' true file keep
    obtain ⟨coarse, coarseIs, line, -⟩ :=
      sound.lookup?_copiedPiece split begins notFeed' false file keep
    rw [← Position.advanceText_append] at line same
    exact ⟨fineIs.trans (congrArg some (same rfl)), coarse.source, coarseIs, line⟩
  · change replacement = _ at text
    subst text
    have boundary : Text.isBoundary patch.source span.start = true := by
      cases before with
      | nil => exact fitsHere ⟨c, .replaced span.start true⟩ List.mem_cons_self
      | cons d rest => exact fitsHere ⟨d, .replaced span.start true⟩ List.mem_cons_self
    obtain ⟨lead, rest, wholeSource, startIs⟩ := Text.isBoundary_iff.mp boundary
    have origin := LineTable.position?_ofText lead rest
    rw [← wholeSource, startIs] at origin
    refine ⟨_, _, .replaced, target, origin, relation, fun other => (nomatch other),
      fun _ everyCharacter => ?_⟩
    obtain ⟨segment, closest, sourceIs⟩ := closest_replacedSegments
      (Position.advanceText ⟨0, 0⟩ (front.flatMap Piece.text))
      (Position.advanceText ⟨0, 0⟩ lead) before (List.cons_ne_nil c after)
    rw [← Position.advanceText_append] at closest
    rw [← sourceIs]
    refine sound.lookup?_piece split rfl (List.cons_ne_nil c after) ?_ file keep
    simp only [Piece.segments, origin, Option.toList_some, List.flatMap_singleton]
    rw [if_neg (by simp)]
    exact closest

end Encoded

/-- **Byte offsets and positions agree.** -/
theorem lookup?_ofEdits {source : Text} {asked : List Edit} {generated original : Nat}
    (boundary : Text.isBoundary (ofEdits source asked).output generated = true)
    (found : (ofEdits source asked).table.source? generated = some original)
    (file : Option String) (keep : Bool) :
    let patch := ofEdits source asked
    let map (everyCharacter : Bool) : Encoding :=
      patch.table.encode source patch.output ⟨file, everyCharacter, keep⟩
    ∃ position origin,
      (LineTable.ofText patch.output).position? generated = some position ∧
      (LineTable.ofText source).position? original = some origin ∧
      -- With a segment for every character, only copied line feeds have no position of their own.
      (¬ (patch.table.relation? generated = some .copied ∧
          patch.output.charAt? generated = some '\n') →
        (map true).lookup? position = some origin) ∧
      -- Without, replacements are looked up as before, and copied text on the right line.
      (patch.table.relation? generated = some .replaced →
        (map false).lookup? position = some origin) ∧
      (patch.table.relation? generated = some .copied →
        patch.output.charAt? generated ≠ some '\n' →
        ∃ answer, (map false).lookup? position = some answer ∧ answer.line = origin.line) := by
  intro patch map
  have records := records_ofEdits source asked
  obtain ⟨position, origin, relation, isThere, comesFrom, related, copied, replaced⟩ :=
    records.sound.lookup?_encoded boundary found file keep
  have mapIs (everyCharacter : Bool) :
      map everyCharacter = patch.encoded everyCharacter file keep := by
    rw [encoded, records.source]
  rw [records.source] at comesFrom
  refine ⟨position, origin, isThere, comesFrom, fun noFeed => ?_, fun isReplaced => ?_,
    fun isCopied noFeed => ?_⟩
  · rw [mapIs]
    cases relation with
    | copied => exact (copied rfl fun feed => noFeed ⟨related, feed⟩).1
    | replaced => exact replaced rfl true
  · rw [mapIs]
    exact replaced (Option.some.inj (related.symm.trans isReplaced)) false
  · rw [mapIs]
    exact (copied (Option.some.inj (related.symm.trans isCopied)) noFeed).2

/-- The last character of a replacement on two lines. -/
theorem lookup?_ofEdits_line :
    let patch := ofEdits ['a', 'b'] [.overwrite 0 1 ['x', '\n', 'y']]
    Text.isBoundary patch.output 2 = true ∧ patch.table.source? 2 = some 0 ∧
      patch.table.relation? 2 = some .replaced ∧
      ∃ position origin, (LineTable.ofText patch.output).position? 2 = some position ∧
        (LineTable.ofText ['a', 'b']).position? 0 = some origin ∧
        (patch.table.encode ['a', 'b'] patch.output ⟨none, false, false⟩).lookup? position =
          some origin := by
  intro patch
  have boundary : Text.isBoundary patch.output 2 = true := by decide
  have found : patch.table.source? 2 = some 0 := by decide
  have related : patch.table.relation? 2 = some .replaced := by decide
  obtain ⟨position, origin, isThere, comesFrom, -, replaced, -⟩ :=
    lookup?_ofEdits boundary found none false
  exact ⟨boundary, found, related, position, origin, isThere, comesFrom, replaced related⟩

end Patch

end ClassHoist
