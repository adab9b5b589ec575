import ClassHoist.Proofs.Copies
import ClassHoist.Proofs.Names
import ClassHoist.Proofs.Segments

/-! # The map of a processed document

Every character of a document outside the replaced ranges is found again through the map, at
exactly its own position, and every position in the name of a group leads to the place where its
classes start (`hoist_maps`).
-/

namespace ClassHoist

open Markup SourceMap

namespace Patch

variable {patch : Patch} {options : Options} {file : Option String} {front back : List Cell}
  {origin : Position}

/-- The map of the edited text with its marks renamed. -/
def renamedMap (patch : Patch) (options : Options) (file : Option String) : Encoding :=
  patch.table.encode patch.source (renameMarkers options patch.output) ⟨file, true, false⟩

theorem Sound.segments_renamedMap (sound : patch.Sound) (options : Options)
    (file : Option String) :
    (patch.renamedMap options file).segments =
      segmentsFrom patch.source ⟨0, 0⟩ (patch.pieces.flatMap Piece.cells) := by
  rw [renamedMap, renameMarkers_eq]
  exact segments_encode patch.pieces sound.fits file false

/-- Where the first of some characters of the edited text stands after renaming. -/
theorem position?_renamed (options : Options)
    (split : patch.pieces.flatMap Piece.cells = front ++ back) :
    (LineTable.ofText (renameMarkers options patch.output)).position?
        (Text.bytes (front.map Cell.char)) =
      some (Position.advanceText ⟨0, 0⟩ (front.map Cell.char)) := by
  have found := LineTable.position?_ofText (underscored options.names [] (front.map Cell.char))
    (underscored options.names (front.map Cell.char).reverse (back.map Cell.char))
  rw [bytes_underscored, advanceText_underscored] at found
  rw [output_eq_map_char, split, List.map_append, renameMarkers_eq, underscored_append,
    List.append_nil]
  exact found

/-- A replacement without colons is not changed by renaming. -/
theorem stands_renamed (options : Options) {start : Nat} {text : Text}
    (split : patch.pieces.flatMap Piece.cells = front ++ (replacedCells start true text ++ back))
    (noColon : ':' ∉ text) :
    Text.Stands (renameMarkers options patch.output) (Text.bytes (front.map Cell.char))
      (Text.bytes (front.map Cell.char) + Text.bytes text) text := by
  rw [output_eq_map_char, split, List.map_append, List.map_append, map_char_replacedCells,
    renameMarkers_eq, underscored_append, underscored_append,
    underscored_of_no_colon _ _ noColon]
  exact ⟨_, _, rfl, bytes_underscored _ _ _, rfl⟩

/-- A copied character is looked up where it comes from. -/
theorem Sound.lookup?_copied (sound : patch.Sound) {c : Char} {offset : Nat} (notFeed : c ≠ '\n')
    (split : patch.pieces.flatMap Piece.cells = front ++ ⟨c, .copied offset⟩ :: back)
    (found : (LineTable.ofText patch.source).position? offset = some origin) :
    (patch.renamedMap options file).lookup? (Position.advanceText ⟨0, 0⟩ (front.map Cell.char)) =
      some origin := by
  have segments := sound.segments_renamedMap options file
  rw [split, segmentsFrom_append, segmentsFrom] at segments
  have one (target : Position) :
      Cell.segments patch.source target ⟨c, .copied offset⟩ = [⟨target, origin⟩] := by
    unfold Cell.segments
    simp only [notFeed, ↓reduceIte, found, Option.toList_some, List.map_cons, List.map_nil]
  rw [one] at segments
  refine Encoding.lookup?_eq segments ?_ (fun before => before.ne rfl) ?_ rfl
  · rw [sound.segments_renamedMap]
    exact segmentsFrom_ordered _ _ _
  · intro next member
    exact (Position.before_advance _ c).of_not_before (not_before_of_mem_segmentsFrom member)

/-- Positions in a replacement on one line are looked up at the start of what it replaces. -/
theorem Sound.lookup?_replaced (sound : patch.Sound) {start : Nat} {text : Text}
    (nonempty : text ≠ []) (noFeed : '\n' ∉ text)
    (split : patch.pieces.flatMap Piece.cells = front ++ (replacedCells start true text ++ back))
    (found : (LineTable.ofText patch.source).position? start = some origin) {column : Nat}
    (from_ : (Position.advanceText ⟨0, 0⟩ (front.map Cell.char)).column ≤ column)
    (upTo : column < (Position.advanceText ⟨0, 0⟩ (front.map Cell.char)).column + Text.units text) :
    (patch.renamedMap options file).lookup?
        ⟨(Position.advanceText ⟨0, 0⟩ (front.map Cell.char)).line, column⟩ = some origin := by
  have segments := sound.segments_renamedMap options file
  have oneLine : laterLines text = 0 := by
    unfold laterLines
    rw [List.count_eq_zero.mpr noFeed]
    split <;> rfl
  rw [split, segmentsFrom_append, segmentsFrom_append, segmentsFrom_replacedCells found,
    if_pos ⟨rfl, nonempty⟩, oneLine, map_char_replacedCells,
    Position.advanceText_of_no_feed _ noFeed] at segments
  refine Encoding.lookup?_eq segments ?_ ?_ ?_ rfl
  · rw [sound.segments_renamedMap]
    exact segmentsFrom_ordered _ _ _
  · unfold Position.Before
    simp only
    omega
  · intro next member
    have after := not_before_of_mem_segmentsFrom member
    unfold Position.Before at after ⊢
    simp only at after ⊢
    omega

end Patch

/-- **The map is exact.** -/
theorem hoist_maps {content : Text} (small : content.bytes ≤ Offset.limit) {options : Options}
    {file : Option String} {code : Text} {map : Encoding}
    (done : hoist options content file = .ok ⟨code, some map⟩) :
    ∃ start document, (ReadableRange.ofContent content).start? = some start ∧
      read? (Stripped.ofDocument content start).text = .ok document ∧
      let range (usage : Usage) : Span := (Stripped.ofDocument content start).mapSpan usage.span
      let source := LineTable.ofText content
      let target := LineTable.ofText code
      ∃ place : Nat → Nat,
        -- Characters outside the ranges are kept in order.
        (∀ first second c d, first < second → content.charAt? first = some c →
          content.charAt? second = some d →
          (∀ usage ∈ document.usages, ¬ (range usage).contains first) →
          (∀ usage ∈ document.usages, ¬ (range usage).contains second) →
          place first < place second) ∧
        -- Each is there, or the underscore of a renamed mark, and is looked up where it was.
        (∀ offset c, content.charAt? offset = some c → c ≠ '\n' →
          (∀ usage ∈ document.usages, ¬ (range usage).contains offset) →
          (code.charAt? (place offset) = some c ∨
            (c = ':' ∧ code.charAt? (place offset) = some '_' ∧ ∃ marker ∈ options.markers,
              ∃ lead, Text.Stands code lead (place offset + 1) marker.renamedLead)) ∧
          ∃ position origin, target.position? (place offset) = some position ∧
            source.position? offset = some origin ∧ map.lookup? position = some origin) ∧
        -- The name of each group stands in place of its classes and is looked up at their start.
        ∀ usage ∈ document.usages,
          Text.Stands code (place (range usage).start)
            (place (range usage).start + Text.bytes (groupName usage.group))
            (groupName usage.group) ∧
          ∃ position origin, target.position? (place (range usage).start) = some position ∧
            source.position? (range usage).start = some origin ∧
            ∀ column, position.column ≤ column →
              column < position.column + Text.units (groupName usage.group) →
              map.lookup? ⟨position.line, column⟩ = some origin := by
  obtain ⟨start, document, begins, read, readable, codeIs, mapIs⟩ := exists_of_hoist small done
  refine ⟨start, document, begins, read, ?_⟩
  intro range source target
  have sound := readable.documentPatch_sound options
  have sourceIs := source_documentPatch options content (Stripped.ofDocument content start) document
  have overwritesAre :=
    overwrites_documentPatch options content (Stripped.ofDocument content start) document
  have outside {offset : Nat} (kept : ∀ usage ∈ document.usages, ¬ (range usage).contains offset) :
      ¬ (documentPatch options content (Stripped.ofDocument content start) document).Overwrites
        offset := not_overwrites_documentPatch kept
  -- From here on only the patch counts, not how it came about.
  generalize documentPatch options content (Stripped.ofDocument content start) document = patch
    at sound sourceIs overwritesAre outside codeIs mapIs
  subst sourceIs
  have map' : map = patch.renamedMap options file := by rw [mapIs, codeIs, Patch.renamedMap]
  subst codeIs map'
  refine ⟨patch.place, ?_, ?_, ?_⟩
  · intro first second c d ordered isFirst isSecond keptFirst _
    exact Patch.place_lt_place ordered isFirst isSecond (outside keptFirst)
  · intro offset c isThere notFeed kept
    obtain ⟨before, after, whole, rfl⟩ := Text.charAt?_eq_some_iff.mp isThere
    obtain ⟨front, back, cells, placed⟩ := sound.exists_copied whole (outside kept)
    have origin := LineTable.position?_ofText before (c :: after)
    rw [← whole] at origin
    have position := Patch.position?_renamed options cells
    rw [placed] at position
    refine ⟨?_, _, _, position, origin, sound.lookup?_copied notFeed cells origin⟩
    · rw [← placed, Patch.output_eq_map_char, cells, List.map_append, List.map_cons]
      rcases charAt?_renameMarkers options (front.map Cell.char) (back.map Cell.char) c with
        same | ⟨isColon, marker, enabled, lead, renamed, stands⟩
      · exact .inl same
      · exact .inr ⟨isColon, renamed, marker, enabled, lead, stands⟩
  · intro usage isUsage
    have member : (Stripped.ofDocument patch.source start).edit usage ∈ patch.overwrites := by
      rw [overwritesAre]
      exact List.mem_map_of_mem isUsage
    obtain ⟨front, back, cells, placed⟩ := sound.exists_replaced member
    obtain ⟨before, after, whole, startIs⟩ := Text.isBoundary_iff.mp (sound.bounded _ member).1
    have origin := LineTable.position?_ofText before after
    rw [← whole, startIs] at origin
    have stands := Patch.stands_renamed options cells (not_mem_groupName (.inl rfl))
    have position := Patch.position?_renamed options cells
    rw [placed] at stands position
    refine ⟨stands, _, _, position, origin, fun column from_ upTo => ?_⟩
    exact sound.lookup?_replaced (List.cons_ne_nil _ _) (not_mem_groupName (.inr (by decide)))
      cells origin from_ upTo

/-- The name of its group stands where the class handed to a component was. -/
theorem hoist_maps_card :
    Text.bytes card ≤ Offset.limit ∧ ∃ code map,
      hoist ⟨false, false⟩ card none = .ok ⟨code, some map⟩ ∧
      ∃ document, read? (Stripped.ofDocument card 0).text = .ok document ∧
        document.usages.map Usage.group = [['b']] ∧
        ∃ place : Nat → Nat, ∀ usage ∈ document.usages,
          Text.Stands code (place ((Stripped.ofDocument card 0).mapSpan usage.span).start)
            (place ((Stripped.ofDocument card 0).mapSpan usage.span).start +
              Text.bytes (groupName usage.group)) (groupName usage.group) := by
  have small : Text.bytes card ≤ Offset.limit := by decide
  obtain ⟨code, map, done⟩ := hoist_card
  obtain ⟨start, document, begins, read, place, -, -, names⟩ := hoist_maps small done
  obtain rfl : start = 0 := (Option.some.inj begins).symm
  exact ⟨small, code, map, done, document, read, groups_card read, place,
    fun usage member => (names usage member).1⟩

end ClassHoist
