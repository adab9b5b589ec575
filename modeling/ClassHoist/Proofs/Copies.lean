import ClassHoist.Proofs.Hoisting
import ClassHoist.Proofs.Renaming
import ClassHoist.Proofs.Splice

/-! # What is kept of a document

A processed document is its source with the classes handed to components replaced, the rules put in
one place, and the marks renamed. Every character outside the replaced ranges has one place in the
result, in the same order, and it is the same character there or the underscore of a renamed mark
(`hoist_splices`).
-/

namespace ClassHoist

open Markup SourceMap

/-- Where the source character at an offset is copied to. -/
def Patch.place (patch : Patch) (offset : Nat) : Nat :=
  match Text.splitAt? offset patch.source with
  | some (before, _) =>
    Text.bytes ((splicedCells patch.overwrites patch.insertions 0 before ++
      insertedCellsAt patch.insertions offset).map Cell.char)
  | none => 0

/-- The byte at an offset lies in one of the ranges. -/
def Patch.Overwrites (patch : Patch) (offset : Nat) : Prop :=
  ∃ edit ∈ patch.overwrites, edit.start ≤ offset ∧ offset < edit.stop

namespace Patch

variable {patch : Patch} {offset : Nat} {c : Char} {before after : Text}

theorem writtenCells_of_not_overwrites (outside : ¬ patch.Overwrites offset) (c : Char) :
    writtenCells patch.overwrites offset c = [⟨c, .copied offset⟩] := by
  refine writtenCells_of_outside (fun edit member => ?_) c
  by_cases ended : edit.stop ≤ offset
  · exact .inl ended
  · exact .inr (Nat.lt_of_not_le fun from_ => outside ⟨edit, member, from_, Nat.lt_of_not_le ended⟩)

/-- A character outside the overwritten ranges is copied to its place. -/
theorem Sound.exists_copied (sound : patch.Sound) (whole : patch.source = before ++ c :: after)
    (outside : ¬ patch.Overwrites (Text.bytes before)) :
    ∃ front back, patch.pieces.flatMap Piece.cells =
        front ++ ⟨c, .copied (Text.bytes before)⟩ :: back ∧
      Text.bytes (front.map Cell.char) = patch.place (Text.bytes before) := by
  refine ⟨splicedCells patch.overwrites patch.insertions 0 before ++
      insertedCellsAt patch.insertions (Text.bytes before),
    splicedCells patch.overwrites patch.insertions (Text.bytes before + c.utf8Size) after ++
      (insertedCellsAt patch.insertions (Text.bytes patch.source) ++
        insertedCells patch.appended), ?_, ?_⟩
  · rw [sound.cells_pieces, whole]
    rw [splicedCells_append, splicedCells_cons, Nat.zero_add,
      writtenCells_of_not_overwrites outside]
    simp only [List.append_assoc, List.cons_append, List.nil_append]
  · rw [place, whole, Text.splitAt?_append]

/-- The replacement of an overwritten range starts at the place of the range. -/
theorem Sound.exists_replaced (sound : patch.Sound) {edit : Overwrite}
    (member : edit ∈ patch.overwrites) :
    ∃ front back, patch.pieces.flatMap Piece.cells =
        front ++ (replacedCells edit.start true edit.text ++ back) ∧
      Text.bytes (front.map Cell.char) = patch.place edit.start := by
  obtain ⟨isStart, isStop⟩ := sound.bounded edit member
  obtain ⟨before, part, after, whole, startIs, stopIs⟩ := Text.exists_parts_of_isBoundary isStart
    isStop (Nat.le_of_lt (sound.nonempty edit member))
  have replaced := sound.splicedCells_overwrite member ⟨before, after, whole, startIs, stopIs⟩
  refine ⟨splicedCells patch.overwrites patch.insertions 0 before ++
      insertedCellsAt patch.insertions edit.start,
    splicedCells patch.overwrites patch.insertions edit.stop after ++
      (insertedCellsAt patch.insertions (Text.bytes patch.source) ++
        insertedCells patch.appended), ?_, ?_⟩
  · have split : splicedCells patch.overwrites patch.insertions 0 patch.source =
        splicedCells patch.overwrites patch.insertions 0 before ++
          (splicedCells patch.overwrites patch.insertions edit.start part ++
            splicedCells patch.overwrites patch.insertions edit.stop after) := by
      rw [whole, splicedCells_append, splicedCells_append, Nat.zero_add, startIs, stopIs]
    rw [sound.cells_pieces, split, replaced]
    simp only [List.append_assoc]
  · have cut : Text.splitAt? edit.start patch.source = some (before, part ++ after) :=
      Text.splitAt?_eq_some_iff.mpr ⟨whole, startIs⟩
    rw [place, cut]

/-- Copies keep their order. -/
theorem place_lt_place {first second : Nat} {d : Char} (ordered : first < second)
    (isFirst : Text.charAt? patch.source first = some c)
    (isSecond : Text.charAt? patch.source second = some d)
    (outside : ¬ patch.Overwrites first) : patch.place first < patch.place second := by
  obtain ⟨before, after, whole, rfl⟩ := Text.charAt?_eq_some_iff.mp isFirst
  obtain ⟨longer, rest, whole', rfl⟩ := Text.charAt?_eq_some_iff.mp isSecond
  obtain ⟨between, rfl, split⟩ :=
    Text.exists_append_of_bytes_le (whole.symm.trans whole') (Nat.le_of_lt ordered)
  cases between with
  | nil =>
    rw [List.append_nil] at ordered
    exact absurd ordered (Nat.lt_irrefl _)
  | cons e more =>
    obtain ⟨rfl, -⟩ := List.cons.inj split
    have positive := c.utf8Size_pos
    have cut : Text.splitAt? (Text.bytes before) patch.source = some (before, c :: after) :=
      Text.splitAt?_eq_some_iff.mpr ⟨whole, rfl⟩
    have cut' : Text.splitAt? (Text.bytes (before ++ c :: more)) patch.source =
        some (before ++ c :: more, d :: rest) := Text.splitAt?_eq_some_iff.mpr ⟨whole', rfl⟩
    rw [place, cut, place, cut']
    simp only
    rw [splicedCells_append, splicedCells_cons, Nat.zero_add,
      writtenCells_of_not_overwrites outside]
    simp only [List.map_append, List.map_cons, List.map_nil, Text.bytes_append, Text.bytes_cons,
      Text.bytes_nil]
    omega

end Patch

/-- What comes of a document that is processed. -/
theorem exists_of_hoist {content : Text} (small : content.bytes ≤ Offset.limit) {options : Options}
    {file : Option String} {code : Text} {map : Encoding}
    (done : hoist options content file = .ok ⟨code, some map⟩) :
    ∃ start document, (ReadableRange.ofContent content).start? = some start ∧
      read? (Stripped.ofDocument content start).text = .ok document ∧
      Readable content (Stripped.ofDocument content start) document ∧
      code = renameMarkers options
        (documentPatch options content (Stripped.ofDocument content start) document).output ∧
      map = (documentPatch options content (Stripped.ofDocument content start) document).table.encode
        content code ⟨file, true, false⟩ := by
  unfold hoist at done
  cases begins : (ReadableRange.ofContent content).start? with
  | none =>
    rw [begins] at done
    simp only [Except.ok.injEq, Hoisted.mk.injEq, reduceCtorEq, and_false] at done
  | some start =>
    simp only [begins] at done
    cases read : read? (Stripped.ofDocument content start).text with
    | error faults =>
      rw [read] at done
      cases done
    | ok document =>
      have readable := readable_of_read? small begins read
      simp only [read, readable.hoistPatch_eq_ok options, Except.ok.injEq, Hoisted.mk.injEq,
        Option.some.injEq] at done
      obtain ⟨rfl, rfl⟩ := done
      exact ⟨start, document, rfl, read, readable, rfl, rfl⟩

section DocumentPatch

variable {content : Text} {stripped : Stripped} {document : Document}

theorem source_documentPatch (options : Options) (content : Text) (stripped : Stripped)
    (document : Document) : (documentPatch options content stripped document).source = content := by
  unfold documentPatch
  simp only
  split
  · rfl
  · split <;> rfl

theorem overwrites_documentPatch (options : Options) (content : Text) (stripped : Stripped)
    (document : Document) :
    (documentPatch options content stripped document).overwrites =
      document.usages.map stripped.edit := by
  unfold documentPatch
  simp only
  split
  · rfl
  · split <;> rfl

/-- Only the ranges of the classes are replaced. -/
theorem not_overwrites_documentPatch {options : Options} {content : Text} {stripped : Stripped}
    {document : Document} {offset : Nat}
    (kept : ∀ usage ∈ document.usages, ¬ (stripped.mapSpan usage.span).contains offset) :
    ¬ (documentPatch options content stripped document).Overwrites offset := by
  rintro ⟨edit, member, inside⟩
  rw [overwrites_documentPatch] at member
  obtain ⟨usage, isUsage, rfl⟩ := List.mem_map.mp member
  refine kept usage isUsage ?_
  simp only [Span.contains, Bool.and_eq_true, decide_eq_true_eq]
  exact inside

/-- The rules are put in one place outside the replaced ranges, or into a new style at the end. -/
theorem Readable.output_documentPatch (readable : Readable content stripped document)
    (options : Options) :
    let edits := document.usages.map stripped.edit
    let rules := renderedRules options content stripped document
    let output := (documentPatch options content stripped document).output
    (∃ offset, (∀ edit ∈ edits, offset ≤ edit.start ∨ edit.stop ≤ offset) ∧
        Text.isBoundary content offset = true ∧
        output = Patch.splice edits [⟨offset, rules⟩] content) ∨
      output = Patch.splice edits [] content ++
        if rules = [] then [] else "<style>".toList ++ rules ++ "</style>".toList := by
  intro edits rules output
  have whole := (readable.documentPatch_sound options).output_eq_splice
  unfold output
  rw [whole]
  unfold documentPatch
  simp only
  by_cases noRules : renderedRules options content stripped document = []
  · refine .inr ?_
    rw [if_pos noRules, if_pos noRules]
  · rw [if_neg noRules]
    cases site : ownSite? content stripped document with
    | some offset =>
      have can := readable.canInsert site
      exact .inl ⟨offset, can.outside, can.bounded, List.append_nil _⟩
    | none =>
      refine .inr ?_
      rw [if_neg noRules]

end DocumentPatch

/-- **Nothing but the classes is replaced.** -/
theorem hoist_splices {content : Text} (small : content.bytes ≤ Offset.limit) {options : Options}
    {file : Option String} {code : Text} {map : Encoding}
    (done : hoist options content file = .ok ⟨code, some map⟩) :
    ∃ start document, (ReadableRange.ofContent content).start? = some start ∧
      read? (Stripped.ofDocument content start).text = .ok document ∧
      let stripped := Stripped.ofDocument content start
      let range (usage : Usage) : Span := stripped.mapSpan usage.span
      let edits := document.usages.map fun usage =>
        (⟨(range usage).start, (range usage).stop, groupName usage.group⟩ : Overwrite)
      let rules := GlobalRule.renderAll
        (documentRules options document.usages (Patch.splice edits [] content))
      -- The ranges are not empty, lie in the content, and come one after the other.
      (∀ usage ∈ document.usages, (range usage).start < (range usage).stop ∧
        (range usage).stop ≤ content.bytes) ∧
      (document.usages.map range).Pairwise (fun first second => first.stop ≤ second.start) ∧
      -- Without the directives, the text in a range is the group.
      (∀ usage ∈ document.usages, ∃ value,
        content.slice? (range usage).start (range usage).stop = some value ∧
        Text.outside stripped.removed (range usage).start value = usage.group) ∧
      -- The result is the content with the ranges replaced and the rules in one place.
      ((∃ offset, (∀ usage ∈ document.usages,
            ¬ ((range usage).start < offset ∧ offset < (range usage).stop)) ∧
          Text.isBoundary content offset = true ∧
          code = renameMarkers options (Patch.splice edits [⟨offset, rules⟩] content)) ∨
        code = renameMarkers options (Patch.splice edits [] content ++
          if rules = [] then [] else "<style>".toList ++ rules ++ "</style>".toList)) ∧
      -- All other characters are kept in order, but for the colons of marks.
      ∃ place : Nat → Nat,
        (∀ offset c, content.charAt? offset = some c →
          (∀ usage ∈ document.usages, ¬ (range usage).contains offset) →
          code.charAt? (place offset) = some c ∨
            (c = ':' ∧ code.charAt? (place offset) = some '_')) ∧
        ∀ first second c d, first < second → content.charAt? first = some c →
          content.charAt? second = some d →
          (∀ usage ∈ document.usages, ¬ (range usage).contains first) →
          (∀ usage ∈ document.usages, ¬ (range usage).contains second) →
          place first < place second := by
  obtain ⟨start, document, begins, read, readable, rfl, -⟩ := exists_of_hoist small done
  refine ⟨start, document, begins, read, ?_⟩
  intro stripped range edits rules
  have sound := readable.documentPatch_sound options
  have rulesAre : renderedRules options content stripped document = rules := by
    rw [renderedRules, readable.edits_sound.output_eq_splice, List.append_nil]
    rfl
  have sourceIs := source_documentPatch options content stripped document
  have outside {offset : Nat} (kept : ∀ usage ∈ document.usages, ¬ (range usage).contains offset) :
      ¬ (documentPatch options content stripped document).Overwrites offset :=
    not_overwrites_documentPatch kept
  refine ⟨?_, ?_, ?_, ?_, (documentPatch options content stripped document).place, ?_, ?_⟩
  · intro usage isUsage
    obtain ⟨-, value, nonempty, stands, -⟩ := readable.edit_stands isUsage
    exact ⟨stands.start_lt_stop nonempty, Text.bytes_le_of_isBoundary stands.isBoundary_stop⟩
  · exact List.pairwise_map.mpr (List.pairwise_map.mp readable.edits_apart)
  · intro usage isUsage
    obtain ⟨-, value, -, stands, same⟩ := readable.edit_stands isUsage
    exact ⟨value, stands.slice?_eq, same⟩
  · rw [← rulesAre]
    rcases readable.output_documentPatch options with ⟨offset, apart, boundary, whole⟩ | whole
    · refine .inl ⟨offset, ?_, boundary, congrArg (renameMarkers options) whole⟩
      rintro usage isUsage ⟨after, before⟩
      have lies := apart (stripped.edit usage) (List.mem_map_of_mem isUsage)
      change offset ≤ (range usage).start ∨ (range usage).stop ≤ offset at lies
      omega
    · exact .inr (congrArg (renameMarkers options) whole)
  · intro offset c isThere kept
    rw [← sourceIs] at isThere
    obtain ⟨before, after, whole, rfl⟩ := Text.charAt?_eq_some_iff.mp isThere
    obtain ⟨front, back, cells, placed⟩ := sound.exists_copied whole (outside kept)
    rw [← placed, Patch.output_eq_map_char, cells, List.map_append, List.map_cons]
    rcases charAt?_renameMarkers options (front.map Cell.char) (back.map Cell.char) c with
      same | ⟨isColon, -, -, -, renamed, -⟩
    · exact .inl same
    · exact .inr ⟨isColon, renamed⟩
  · intro first second c d ordered isFirst isSecond keptFirst _
    rw [← sourceIs] at isFirst isSecond
    exact Patch.place_lt_place ordered isFirst isSecond (outside keptFirst)

/-- The class handed to a component is what its usage stands for. -/
theorem hoist_splices_card :
    Text.bytes card ≤ Offset.limit ∧ ∃ code map,
      hoist ⟨false, false⟩ card none = .ok ⟨code, some map⟩ ∧
      ∃ start document, (ReadableRange.ofContent card).start? = some start ∧
        read? (Stripped.ofDocument card start).text = .ok document ∧
        document.usages.map Usage.group = [['b']] ∧
        ∀ usage ∈ document.usages, ∃ value,
          card.slice? ((Stripped.ofDocument card start).mapSpan usage.span).start
            ((Stripped.ofDocument card start).mapSpan usage.span).stop = some value ∧
          Text.outside (Stripped.ofDocument card start).removed
            ((Stripped.ofDocument card start).mapSpan usage.span).start value = usage.group := by
  have small : Text.bytes card ≤ Offset.limit := by decide
  obtain ⟨code, map, done⟩ := hoist_card
  obtain ⟨start, document, begins, read, -, -, groups, -⟩ := hoist_splices small done
  obtain rfl : start = 0 := (Option.some.inj begins).symm
  exact ⟨small, code, map, done, 0, document, begins, read, groups_card read, groups⟩

end ClassHoist
