import ClassHoist.Proofs.Hoisting
import ClassHoist.Proofs.Rewritten
import ClassHoist.Proofs.Splice

/-! # The output of the edits of a document

The edits of a document overwrite the classes in its stretches and leave the rest alone
(`Overwrites.overwritten`). Rules come where their stretch stands (`Overwrites.output_insertion`), and a
new style at the end is one that stood there already, with rules put in (`Overwrites.output_appended`).
-/

namespace ClassHoist

open Markup SourceMap

namespace Patch

variable {edits : List Overwrite}

/-- The source with ranges overwritten, from an offset on. -/
def overwritten (edits : List Overwrite) (offset : Nat) (text : Text) : Text :=
  spliced (insertedAt []) (writtenAt edits) offset text

/-- Ranges in two parts are overwritten in the first, then in the second. -/
theorem overwritten_append (offset : Nat) (first second : Text) :
    overwritten edits offset (first ++ second) =
      overwritten edits offset first ++ overwritten edits (offset + Text.bytes first) second :=
  spliced_append first second

/-- A part with no overwritten range in it stays. -/
theorem overwritten_of_outside {offset : Nat} {text : Text}
    (outside : ∀ edit ∈ edits, edit.stop ≤ offset ∨ offset + Text.bytes text ≤ edit.start) :
    overwritten edits offset text = text := by
  induction text generalizing offset with
  | nil => rfl
  | cons c rest ih =>
    have positive := c.utf8Size_pos
    rw [Text.bytes_cons] at outside
    have here : writtenAt edits offset c = [c] := by
      have none : (edits.find? fun edit => edit.start ≤ offset && offset < edit.stop) = none := by
        refine List.find?_eq_none.mpr fun edit member inside => ?_
        have lies := outside edit member
        simp only [Bool.and_eq_true, decide_eq_true_eq] at inside
        omega
      rw [writtenAt, none]
    have later := @ih (offset + c.utf8Size) fun edit member => by
      have lies := outside edit member
      omega
    rw [overwritten] at later ⊢
    rw [spliced, here, later]
    rfl

/-- An overwritten range becomes its replacement. -/
theorem overwritten_of_mem {source part : Text} (sound : Sound ⟨source, edits, [], []⟩)
    {edit : Overwrite} (member : edit ∈ edits)
    (stands : Text.Stands source edit.start edit.stop part) :
    overwritten edits edit.start part = edit.text := by
  have cells := congrArg (List.map Cell.char) (sound.splicedCells_overwrite member stands)
  rw [map_char_splicedCells, List.map_append, map_char_replacedCells] at cells
  exact cells

/-- The output of overwritten ranges is the source with these overwritten. -/
theorem output_of_overwrites {source : Text} (sound : Sound ⟨source, edits, [], []⟩) :
    Patch.output ⟨source, edits, [], []⟩ = overwritten edits 0 source := by
  rw [sound.output_eq_splice]
  exact (List.append_nil _).trans (List.append_nil _)

/-- One insertion cuts the source in two. -/
theorem output_of_insertion {first second added : Text}
    (sound : Sound ⟨first ++ second, edits, [⟨Text.bytes first, added⟩], []⟩) :
    Patch.output ⟨first ++ second, edits, [⟨Text.bytes first, added⟩], []⟩ =
      overwritten edits 0 first ++ (added ++ overwritten edits (Text.bytes first) second) := by
  have elsewhere {place : Nat} (other : Text.bytes first ≠ place) :
      insertedAt [⟨Text.bytes first, added⟩] place = insertedAt [] place :=
    insertedAt_eq_nil fun entry member => by rwa [List.mem_singleton.mp member]
  have here : insertedAt [⟨Text.bytes first, added⟩] (Text.bytes first) = added := by
    rw [insertedAt_cons, if_pos rfl]
    exact List.append_nil _
  have front : spliced (insertedAt [⟨Text.bytes first, added⟩]) (writtenAt edits) 0 first =
      overwritten edits 0 first :=
    spliced_congr (fun place _ upTo => elsewhere (by omega)) fun _ _ _ => rfl
  have back : spliced (insertedAt [⟨Text.bytes first, added⟩]) (writtenAt edits) (Text.bytes first)
        second ++ insertedAt [⟨Text.bytes first, added⟩] (Text.bytes (first ++ second)) =
      added ++ overwritten edits (Text.bytes first) second := by
    cases second with
    | nil =>
      rw [List.append_nil, here]
      exact (List.append_nil _).symm
    | cons c rest =>
      have positive := c.utf8Size_pos
      have last : insertedAt [⟨Text.bytes first, added⟩] (Text.bytes (first ++ c :: rest)) = [] :=
        elsewhere (by rw [Text.bytes_append, Text.bytes_cons]; omega)
      have later : spliced (insertedAt [⟨Text.bytes first, added⟩]) (writtenAt edits)
          (Text.bytes first + c.utf8Size) rest =
            overwritten edits (Text.bytes first + c.utf8Size) rest :=
        spliced_congr (fun place from_ _ => elsewhere (by omega)) fun _ _ _ => rfl
      rw [spliced, here, later, last, List.append_nil]
      rfl
  have whole : splice edits [⟨Text.bytes first, added⟩] (first ++ second) =
      overwritten edits 0 first ++ (added ++ overwritten edits (Text.bytes first) second) := by
    rw [splice, spliced_append, front, Nat.zero_add, List.append_assoc, back]
  rw [sound.output_eq_splice]
  exact (List.append_nil _).trans whole

end Patch

/-- The classes in stretches. -/
def stretchUsages (stretches : List Stretch) : List Usage :=
  (stretches.map Stretch.part).filterMap Markup.Part.usage?

variable {stripped : Stripped} {site : Option Nat} {offset : Nat} {stretches : List Stretch}

/-- The usages of stretches start no earlier than the stretches do. -/
theorem StretchesAt.le_start (placed : StretchesAt stripped site offset stretches) :
    ∀ usage ∈ stretchUsages stretches, offset ≤ stripped.mapStart usage.span.start := by
  induction stretches generalizing offset with
  | nil => exact fun _ member => nomatch member
  | cons stretch stretches ih =>
    cases stretch with
    | kept text left =>
      exact fun usage member => Nat.le_trans (Nat.le_add_right _ _) (ih placed usage member)
    | classes usage cut value =>
      obtain ⟨start, -, later⟩ := placed
      refine List.forall_mem_cons.mpr ⟨start ▸ Nat.le_add_right _ _, fun other member => ?_⟩
      have further := ih later other member
      omega
    | rules => exact ih placed.2

/-- The usages of stretches stop no later than the stretches do. -/
theorem StretchesAt.stop_le (placed : StretchesAt stripped site offset stretches) :
    ∀ usage ∈ stretchUsages stretches,
      stripped.mapEnd usage.span.stop ≤ offset + Text.bytes (stretchText stretches) := by
  induction stretches generalizing offset with
  | nil => exact fun _ member => nomatch member
  | cons stretch stretches ih =>
    rw [stretchText_cons, Text.bytes_append, ← Nat.add_assoc]
    cases stretch with
    | kept text left => exact ih placed
    | classes usage cut value =>
      obtain ⟨-, stop, later⟩ := placed
      rw [Stretch.text, Text.bytes_append, ← Nat.add_assoc]
      exact List.forall_mem_cons.mpr ⟨stop ▸ Nat.le_add_right _ _, ih later⟩
    | rules => exact ih placed.2

/-- Stretches stand one behind the other if the first ones do and the others do behind them. -/
theorem stretchesAt_append {first second : List Stretch} :
    StretchesAt stripped site offset (first ++ second) ↔ StretchesAt stripped site offset first ∧
      StretchesAt stripped site (offset + Text.bytes (stretchText first)) second := by
  induction first generalizing offset with
  | nil => exact ⟨fun placed => ⟨trivial, placed⟩, And.right⟩
  | cons stretch first ih =>
    rw [stretchText_cons, Text.bytes_append, ← Nat.add_assoc]
    cases stretch with
    | kept text left => exact ih
    | classes usage cut value =>
      show _ ∧ _ ∧ StretchesAt _ _ _ (first ++ second) ↔ (_ ∧ _ ∧ StretchesAt _ _ _ first) ∧ _
      rw [ih, Stretch.text, Text.bytes_append, ← Nat.add_assoc]
      tauto
    | rules =>
      show _ ∧ StretchesAt _ _ _ (first ++ second) ↔ (_ ∧ StretchesAt _ _ _ first) ∧ _
      rw [ih]
      tauto

/-- **Overwriting the classes in stretches.** -/
theorem overwritten_stretches {content added : Text} {edits : List Overwrite}
    (sound : Patch.Sound ⟨content, edits, [], []⟩)
    (placed : StretchesAt stripped site offset stretches) (noRules : .rules ∈ stretches → added = [])
    (edited : ∀ usage ∈ stretchUsages stretches, ⟨stripped.mapStart usage.span.start,
      stripped.mapEnd usage.span.stop, groupName usage.group⟩ ∈ edits)
    (others : ∀ edit ∈ edits, edit.stop ≤ offset ∨
      offset + Text.bytes (stretchText stretches) ≤ edit.start ∨
        ∃ usage ∈ stretchUsages stretches, edit.start = stripped.mapStart usage.span.start ∧
          edit.stop = stripped.mapEnd usage.span.stop)
    (stands : ∃ before after, content = before ++ (stretchText stretches ++ after) ∧
      Text.bytes before = offset) :
    Patch.overwritten edits offset (stretchText stretches) = stretchEdited added stretches := by
  induction stretches generalizing offset with
  | nil => rfl
  | cons stretch stretches ih =>
    obtain ⟨before, after, whole, counted⟩ := stands
    simp only [stretchText_cons, Text.bytes_append, ← Nat.add_assoc, List.append_assoc]
      at whole others
    rw [stretchText_cons, Patch.overwritten_append]
    have stands' : ∃ before' after', content = before' ++ (stretchText stretches ++ after') ∧
        Text.bytes before' = offset + Text.bytes stretch.text :=
      ⟨before ++ stretch.text, after, by rw [whole, List.append_assoc],
        by rw [Text.bytes_append, counted]⟩
    have noRules' (member : .rules ∈ stretches) : added = [] :=
      noRules (List.mem_cons_of_mem _ member)
    cases stretch with
    | kept text left =>
      have further := StretchesAt.le_start (show StretchesAt _ _ (offset + Text.bytes text) _ from placed)
      have later := ih placed noRules' edited (fun edit member => ?_) stands'
      · rw [show (Stretch.kept text left).text = text from rfl, later]
        -- No range reaches into a stretch without classes.
        refine congrArg (· ++ _) (Patch.overwritten_of_outside fun edit member => ?_)
        rcases others edit member with behind | ahead | ⟨usage, isUsage, start, -⟩
        · exact .inl behind
        · exact .inr (Nat.le_trans (Nat.le_add_right _ _) ahead)
        · exact .inr (start ▸ further usage isUsage)
      · rcases others edit member with behind | rest
        · exact .inl (Nat.le_trans behind (Nat.le_add_right _ _))
        · exact .inr rest
    | classes usage cut value =>
      obtain ⟨start, stop, placed⟩ := placed
      obtain ⟨isEdit, edited⟩ := List.forall_mem_cons.mp edited
      have length : offset + Text.bytes (Stretch.classes usage cut value).text =
          offset + Text.bytes cut + Text.bytes value := by
        rw [Stretch.text, Text.bytes_append, Nat.add_assoc]
      rw [length] at others stands' ⊢
      have further := placed.le_start
      have later := ih placed noRules' edited (fun edit member => ?_) stands'
      · rw [later, Stretch.text, Patch.overwritten_append]
        -- What is cut out in front is in no range, and the classes are one range.
        refine congrArg (· ++ _) (congrArg₂ (· ++ ·) ?_ ?_)
        · refine Patch.overwritten_of_outside fun edit member => ?_
          rcases others edit member with behind | ahead | ⟨other, isUsage, start', -⟩
          · exact .inl behind
          · omega
          · rcases List.mem_cons.mp isUsage with rfl | inRest
            · omega
            · have := further other inRest
              omega
        · rw [← start]
          refine Patch.overwritten_of_mem sound isEdit ⟨before ++ cut, stretchText stretches ++ after,
            ?_, ?_, ?_⟩
          · rw [whole, Stretch.text]
            simp only [List.append_assoc]
          · rw [Text.bytes_append, counted, start]
          · rw [start, stop]
      · rcases others edit member with behind | ahead | ⟨other, isUsage, start', stop'⟩
        · exact .inl (by omega)
        · exact .inr (.inl ahead)
        · rcases List.mem_cons.mp isUsage with rfl | inRest
          · exact .inl (by omega)
          · exact .inr (.inr ⟨other, inRest, start', stop'⟩)
    | rules =>
      obtain rfl := noRules List.mem_cons_self
      exact ih placed.2 noRules' edited others stands'

/-- The usages of stretches are those of the first ones, then those of the others. -/
theorem stretchUsages_append (first second : List Stretch) :
    stretchUsages (first ++ second) = stretchUsages first ++ stretchUsages second := by
  simp only [stretchUsages, List.map_append, List.filterMap_append]

/-- The text of stretches is that of the first ones, then that of the others. -/
theorem stretchText_append (first second : List Stretch) :
    stretchText (first ++ second) = stretchText first ++ stretchText second :=
  List.flatMap_append

/-- Stretches are edited one after the other. -/
theorem stretchEdited_append (added : Text) (first second : List Stretch) :
    stretchEdited added (first ++ second) =
      stretchEdited added first ++ stretchEdited added second :=
  List.flatMap_append

/-- The edits that overwrite the classes of some usages, where offsets tell all places of the content
apart. -/
structure Overwrites (content : Text) (stripped : Stripped) (usages : List Usage)
    (edits : List Overwrite) : Prop where
  sound : Patch.Sound ⟨content, edits, [], []⟩
  edits : edits = usages.map fun usage => ⟨stripped.mapStart usage.span.start,
    stripped.mapEnd usage.span.stop, groupName usage.group⟩

/-- The edits of a document that can be read overwrite the classes of its usages. -/
theorem Readable.overwrites {content : Text} {document : Document}
    (readable : Readable content stripped document) :
    Overwrites content stripped document.usages (document.usages.map stripped.edit) where
  sound := readable.edits_sound
  edits := List.map_congr_left fun _ member => (readable.edit_stands member).1

namespace Overwrites

variable {content : Text} {usages : List Usage} {edits : List Overwrite}

/-- The edits of some stretches of a document overwrite the classes in them. -/
theorem overwritten (overwrites : Overwrites content stripped usages edits) (added : Text)
    {first middle last : List Stretch} (noRules : .rules ∈ middle → added = [])
    (whole : content = stretchText (first ++ (middle ++ last)))
    (placed : StretchesAt stripped site 0 (first ++ (middle ++ last)))
    (isUsages : stretchUsages (first ++ (middle ++ last)) = usages) :
    Patch.overwritten edits (Text.bytes (stretchText first)) (stretchText middle) =
      stretchEdited added middle := by
  rw [stretchText_append, stretchText_append] at whole
  obtain ⟨placedFirst, placed⟩ := stretchesAt_append.mp placed
  obtain ⟨placedMiddle, placedLast⟩ := stretchesAt_append.mp placed
  rw [Nat.zero_add] at placedMiddle placedLast
  rw [stretchUsages_append, stretchUsages_append] at isUsages
  refine overwritten_stretches overwrites.sound placedMiddle noRules (fun usage member => ?_)
    (fun edit member => ?_) ⟨_, _, whole, rfl⟩
  · rw [overwrites.edits]
    exact List.mem_map_of_mem
      (isUsages ▸ List.mem_append_right _ (List.mem_append_left _ member))
  · rw [overwrites.edits] at member
    obtain ⟨usage, isUsage, rfl⟩ := List.mem_map.mp member
    rw [← isUsages, List.mem_append, List.mem_append] at isUsage
    rcases isUsage with inFirst | inMiddle | inLast
    · have before := placedFirst.stop_le usage inFirst
      rw [Nat.zero_add] at before
      exact .inl before
    · exact .inr (.inr ⟨usage, inMiddle, rfl, rfl⟩)
    · exact .inr (.inl (placedLast.le_start usage inLast))

/-- The classes are overwritten. -/
theorem output (overwrites : Overwrites content stripped usages edits)
    (whole : content = stretchText stretches)
    (placed : StretchesAt stripped site 0 stretches)
    (isUsages : stretchUsages stretches = usages) :
    Patch.output ⟨content, edits, [], []⟩ = stretchEdited [] stretches := by
  have edited := @overwrites.overwritten stripped site content usages edits [] [] stretches []
    fun _ => rfl
  rw [List.append_nil] at edited
  have all := edited whole placed isUsages
  rw [← whole] at all
  rw [Patch.output_of_overwrites overwrites.sound]
  exact all

/-- The classes are overwritten, and the rules are put in their place. -/
theorem output_insertion (overwrites : Overwrites content stripped usages edits) {added : Text}
    {first second : List Stretch} (noRules : .rules ∉ first) (noRules' : .rules ∉ second)
    (whole : content = stretchText (first ++ .rules :: second))
    (placed : StretchesAt stripped site 0 (first ++ .rules :: second))
    (isUsages : stretchUsages (first ++ .rules :: second) = usages) {place : Nat}
    (isPlace : site.map stripped.mapEnd = some place)
    (sound : Patch.Sound ⟨content, edits, [⟨place, added⟩], []⟩) :
    Patch.output ⟨content, edits, [⟨place, added⟩], []⟩ =
      stretchEdited added (first ++ .rules :: second) := by
  have front := overwrites.overwritten added (fun member => absurd member noRules)
    (show content = stretchText ([] ++ (first ++ .rules :: second)) from whole) placed isUsages
  have split : first ++ .rules :: second = (first ++ [.rules]) ++ (second ++ []) := by
    rw [List.append_nil, List.append_assoc]
    rfl
  have back := overwrites.overwritten added (fun member => absurd member noRules') (split ▸ whole) (split ▸ placed)
    (split ▸ isUsages)
  have atPlace : place = Text.bytes (stretchText first) := by
    obtain ⟨-, here, -⟩ := stretchesAt_append.mp placed
    rw [isPlace, Nat.zero_add] at here
    exact Option.some.inj here
  subst atPlace
  have bare : stretchText (first ++ [.rules]) = stretchText first := by
    rw [stretchText_append]
    exact List.append_nil _
  rw [bare] at back
  rw [stretchText_append] at whole
  obtain rfl : content = stretchText first ++ stretchText second := whole
  rw [Patch.output_of_insertion sound, stretchEdited_append]
  exact congrArg₂ (· ++ ·) front (congrArg (added ++ ·) back)

/-- The edits of a content are edits of every content that it starts. -/
theorem append (overwrites : Overwrites content stripped usages edits) (more : Text) :
    Overwrites (content ++ more) { stripped with tail := stripped.tail ++ more } usages edits where
  sound :=
    have boundary {place : Nat} (isBoundary : Text.isBoundary content place = true) :
        Text.isBoundary (content ++ more) place = true := by
      obtain ⟨before, after, rfl, rfl⟩ := Text.isBoundary_iff.mp isBoundary
      rw [List.append_assoc]
      exact Text.isBoundary_bytes _ _
    { overwrites.sound with
      bounded := fun edit member =>
        (overwrites.sound.bounded edit member).imp boundary boundary
      placed := fun entry member => nomatch member }
  edits := overwrites.edits

/-- No edit reaches over the end of the content. -/
theorem stop_le (overwrites : Overwrites content stripped usages edits) :
    ∀ edit ∈ edits, edit.stop ≤ Text.bytes content := fun edit member =>
  Text.bytes_le_of_isBoundary (overwrites.sound.bounded edit member).2

/-- Rules can be put in behind the content. -/
theorem insertion_sound (overwrites : Overwrites content stripped usages edits)
    (lead rules tail : Text) :
    Patch.Sound ⟨content ++ lead ++ tail, edits, [⟨Text.bytes (content ++ lead), rules⟩], []⟩ := by
  refine ((overwrites.append lead).append tail).sound.insert ⟨Text.isBoundary_bytes _ _, ?_⟩
  exact fun edit member => .inr ((overwrites.append lead).stop_le edit member)

/-- A new style at the end is a style that was there, with rules put in. -/
theorem output_appended (overwrites : Overwrites content stripped usages edits)
    (lead rules tail : Text) :
    Patch.output ⟨content, edits, [], lead ++ rules ++ tail⟩ =
      Patch.output ⟨content ++ lead ++ tail, edits,
        [⟨Text.bytes (content ++ lead), rules⟩], []⟩ := by
  have outside {place : Nat} (text : Text) (upTo : Text.bytes content ≤ place) :
      Patch.overwritten edits place text = text :=
    Patch.overwritten_of_outside fun edit member =>
      .inl (Nat.le_trans (overwrites.stop_le edit member) upTo)
  have appended := (Patch.append_sound overwrites.sound (lead ++ rules ++ tail)).output_eq_splice
  have spliced : Patch.splice edits [] content = Patch.overwritten edits 0 content :=
    List.append_nil _
  have splits : Patch.overwritten edits 0 (content ++ lead) =
      Patch.overwritten edits 0 content ++ lead := by
    rw [Patch.overwritten_append, Nat.zero_add, outside lead (Nat.le_refl _)]
  have last : Patch.overwritten edits (Text.bytes (content ++ lead)) tail = tail :=
    outside tail (by rw [Text.bytes_append]; exact Nat.le_add_right _ _)
  rw [Patch.output_of_insertion (overwrites.insertion_sound lead rules tail), splits, last,
    ← spliced]
  refine appended.trans ?_
  simp only [Patch.append, List.nil_append, List.append_assoc]

end Overwrites

end ClassHoist
