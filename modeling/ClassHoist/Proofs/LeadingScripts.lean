import ClassHoist.Proofs.Hoisting
import ClassHoist.Proofs.Renaming
import ClassHoist.Proofs.Splice
import ClassHoist.Proofs.Untouched

/-! # The scripts at the start of a content

A content that declares TypeScript is read only behind the scripts at its start, which reach through
the last end of a script in it and the white space behind that (`leadingScripts_of_after`). No edit
touches them: a range that is overwritten starts in the part that is read, and so does the place for
the rules (`Patch.Behind`). So the result starts with the scripts as they were, up to renaming, and a
content whose scripts are not all at its start is left as it is (`hoist_leaves_scripts`).
-/

namespace ClassHoist

open Markup

namespace Pattern

variable {pattern : Pattern}

/-- Nothing more is found behind the last match. -/
theorem find?_tail (pattern : Pattern) (text : Text) : pattern.find? (pattern.hits text).2 = none := by
  fun_induction hits pattern text with
  | case1 text located => exact located
  | case2 text before found after located shorter more tail same ih =>
    rw [same] at ih
    exact ih

/-- What is found is read in front of the text behind it. -/
theorem read_of_find? {text before found after : Text}
    (located : pattern.find? text = some (before, found, after)) :
    pattern.read (found ++ after) = some (found, after) := by
  induction text generalizing before with
  | nil => cases located
  | cons c rest ih =>
    cases matched : pattern.read (c :: rest) with
    | some parts =>
      rw [find?, matched] at located
      obtain ⟨-, rfl, rfl⟩ := Option.some.inj located
      rw [pattern.read_append matched]
      exact matched
    | none =>
      rw [find?_of_read_eq_none matched] at located
      obtain ⟨⟨lead, _⟩, deeper, same⟩ := Option.map_eq_some_iff.mp located
      obtain ⟨-, rfl, rfl⟩ := same
      exact ih deeper

/-- The last match is read in front of all the text behind it. -/
theorem exists_last (matched : (pattern.hits text).1 ≠ []) :
    ∃ front found, (pattern.hits text).1.flatMap (fun hit => hit.before ++ hit.found) =
        front ++ found ∧
      pattern.read (found ++ (pattern.hits text).2) = some (found, (pattern.hits text).2) := by
  fun_induction hits pattern text with
  | case1 text located => exact absurd rfl matched
  | case2 text before found after located shorter more tail same ih =>
    rw [same] at ih
    cases more with
    | nil =>
      have ended : after = tail := by
        have joins := pattern.hits_join after
        rw [same] at joins
        exact joins.symm
      rw [← ended]
      exact ⟨before, found, List.append_nil _, read_of_find? located⟩
    | cons next more =>
      obtain ⟨front, last, joins, isLast⟩ := ih (List.cons_ne_nil _ _)
      refine ⟨before ++ found ++ front, last, ?_, isLast⟩
      rw [List.flatMap_cons, joins, List.append_assoc (before ++ found)]

end Pattern

/-- The start of a script. -/
def scriptLead : Text := ['<', 's', 'c', 'r', 'i', 'p', 't']

/-- The end of a script. -/
def scriptClosing : Text := '<' :: '/' :: ['s', 'c', 'r', 'i', 'p', 't', '>']

/-- A content opens with scripts: with the text from the start of a script through the last end of a
script in the content, and all the white space behind that. -/
structure LeadingScripts (content scripts rest : Text) : Prop where
  whole : content = scripts ++ rest
  reach : ∃ body blanks, scripts = scriptLead ++ (body ++ (scriptClosing ++ blanks)) ∧
    (∀ c ∈ blanks, Text.isBlank c = true) ∧
    ∀ before after, content = before ++ (scriptClosing ++ after) →
      Text.bytes before ≤ Text.bytes (scriptLead ++ body)
  stops : ∀ c ∈ rest.head?, Text.isBlank c = false

/-- The end of a script is not an empty text. -/
theorem scriptClosing_ne_nil : scriptClosing ≠ [] := List.cons_ne_nil _ _

/-- The pattern for the end of a script is that text itself. -/
theorem ReadableRange.scriptEnd_eq : scriptEnd = .literal scriptClosing scriptClosing_ne_nil := rfl

/-- No script ends in a text in which no end of a script is found. -/
theorem ReadableRange.not_infix_of_find?_eq_none {text : Text} (none : scriptEnd.find? text = none) :
    ¬ scriptClosing <:+: text := by
  rintro ⟨before, after, rfl⟩
  have matched := Pattern.find?_eq_none_iff.mp none (scriptClosing ++ after)
    ⟨before, by rw [List.append_assoc]⟩
  rw [scriptEnd_eq, Pattern.read_literal] at matched
  cases matched

/-- No script ends inside the end of a script, so none ends behind the last match. -/
theorem bytes_le_of_scriptClosing {front tail before after : Text}
    (none : ReadableRange.scriptEnd.find? tail = none)
    (same : front ++ (scriptClosing ++ tail) = before ++ (scriptClosing ++ after)) :
    Text.bytes before ≤ Text.bytes front := by
  refine Nat.le_of_not_lt fun longer => ?_
  obtain ⟨between, rfl, split⟩ := Text.exists_append_of_bytes_le same (Nat.le_of_lt longer)
  cases between with
  | nil =>
    rw [List.append_nil] at longer
    exact Nat.lt_irrefl _ longer
  | cons c inside =>
    -- The later end of a script starts behind the first character of this one.
    obtain ⟨-, behind⟩ := List.cons.inj split
    rcases List.append_eq_append_iff.mp behind with ⟨later, -, inTail⟩ | ⟨back, within, reach⟩
    · exact ReadableRange.not_infix_of_find?_eq_none none ⟨later, after, by
        rw [inTail, List.append_assoc]⟩
    · cases back with
      | nil =>
        exact ReadableRange.not_infix_of_find?_eq_none none ⟨[], after, by
          rw [List.nil_append, reach, List.nil_append]⟩
      | cons d back =>
        obtain ⟨rfl, -⟩ := List.cons.inj reach
        have isIn : '<' ∈ ['/', 's', 'c', 'r', 'i', 'p', 't', '>'] := by
          rw [within]
          exact List.mem_append_right _ List.mem_cons_self
        exact absurd isIn (by decide)

/-- The start of a script and the end of one share no character. -/
theorem exists_body {front tail rest : Text}
    (same : scriptLead ++ rest = front ++ (scriptClosing ++ tail)) :
    ∃ body, front = scriptLead ++ body := by
  rcases List.append_eq_append_iff.mp same with ⟨body, isFront, -⟩ | ⟨back, within, reach⟩
  · exact ⟨body, isFront⟩
  · cases back with
    | nil => exact ⟨[], by rw [List.append_nil, within, List.append_nil]⟩
    | cons c back =>
      obtain ⟨rfl, reach⟩ := List.cons.inj reach
      cases front with
      | nil =>
        obtain ⟨-, rfl⟩ := List.cons.inj within
        cases reach
      | cons d front =>
        obtain ⟨-, within⟩ := List.cons.inj within
        have isIn : '<' ∈ ['s', 'c', 'r', 'i', 'p', 't'] := by
          rw [within]
          exact List.mem_append_right _ List.mem_cons_self
        exact absurd isIn (by decide)

/-- **Where reading starts.** A content that is read from an offset on opens with scripts up to that
offset. -/
theorem leadingScripts_of_after {content : Text} {stop : Nat}
    (after : ReadableRange.ofContent content = .after stop) :
    ∃ scripts rest, LeadingScripts content scripts rest ∧ Text.bytes scripts = stop ∧
      ¬ scriptClosing <:+: rest := by
  unfold ReadableRange.ofContent at after
  split at after
  case isTrue => cases after
  case isFalse =>
    split at after
    case isTrue => cases after
    case isFalse opens =>
      split at after
      case h_1 => cases after
      case h_2 cuts tail some same =>
        obtain rfl := ReadableRange.after.inj after
        have none := ReadableRange.scriptEnd.find?_tail content
        have joins := ReadableRange.scriptEnd.hits_join content
        have last := @Pattern.exists_last ReadableRange.scriptEnd content
        simp only [same] at none joins last
        -- The last match is the end of the scripts.
        obtain ⟨front, found, isMatched, matched⟩ := last some
        obtain rfl : scriptClosing = found := by
          obtain ⟨_, -, isFound⟩ := Option.map_eq_some_iff.mp matched
          exact (Prod.mk.inj isFound).1
        rw [isMatched, List.append_assoc] at joins
        obtain ⟨body, rfl⟩ : ∃ body, front = scriptLead ++ body := by
          have starts : Text.startsWith scriptLead content = true := by
            simpa [scriptLead] using opens
          obtain ⟨rest, isRest⟩ := Option.isSome_iff_exists.mp starts
          have same : scriptLead ++ rest = front ++ (scriptClosing ++ tail) := by
            rw [joins, Text.dropLead?_eq_some.mp isRest]
          exact exists_body same
        refine ⟨scriptLead ++ (body ++ (scriptClosing ++ tail.takeWhile Text.isBlank)),
          tail.dropWhile Text.isBlank, ⟨?_, ⟨body, _, rfl, ?_, ?_⟩, ?_⟩, ?_, ?_⟩
        · rw [← joins]
          simp only [List.append_assoc, List.takeWhile_append_dropWhile]
        · exact List.all_eq_true.mp List.all_takeWhile
        · intro before after isBefore
          exact bytes_le_of_scriptClosing none (joins.trans isBefore)
        · intro c isHead
          have stops := List.head?_dropWhile_not Text.isBlank tail
          rw [isHead] at stops
          exact stops
        · rw [isMatched]
          simp only [Text.bytes_append, Nat.add_assoc]
        · intro inside
          refine ReadableRange.not_infix_of_find?_eq_none none (inside.trans ?_)
          exact (List.dropWhile_suffix _).isInfix

namespace Patch

/-- A patch of a content, all edits of which are made at an offset or behind it. -/
structure Behind (content : Text) (offset : Nat) (patch : Patch) : Prop where
  source : patch.source = content
  sound : patch.Sound
  overwrites : ∀ edit ∈ patch.overwrites, offset ≤ edit.start
  insertions : ∀ entry ∈ patch.insertions, offset ≤ entry.offset

namespace Behind

variable {content text : Text} {offset start stop : Nat} {patch next : Patch}

/-- A patch without edits has none in front of an offset. -/
theorem ofSource (content : Text) (offset : Nat) :
    (Patch.ofSource content).Behind content offset where
  source := rfl
  sound := ofSource_sound content
  overwrites := by intro edit member; cases member
  insertions := by intro entry member; cases member

/-- A range behind an offset may be overwritten. -/
theorem overwrite (behind : patch.Behind content offset) (from_ : offset ≤ start)
    (done : patch.overwrite start stop text = (.ok (), next)) : next.Behind content offset := by
  obtain ⟨can, rfl⟩ := behind.sound.overwrite_eq_ok_iff.mp done
  refine ⟨behind.source, behind.sound.overwrite can, ?_, behind.insertions⟩
  intro edit member
  rcases mem_insertOverwrite.mp member with rfl | old
  · exact from_
  · exact behind.overwrites edit old

/-- Text may be inserted behind an offset. -/
theorem insert (behind : patch.Behind content offset) (from_ : offset ≤ start)
    (done : patch.insert start text = (.ok (), next)) : next.Behind content offset := by
  obtain ⟨can, rfl⟩ := behind.sound.insert_eq_ok_iff.mp done
  refine ⟨behind.source, behind.sound.insert can, behind.overwrites, ?_⟩
  intro entry member
  rcases offset_of_mem_insertInsertion member with same | ⟨old, isOld, same⟩
  · rw [same]
    exact from_
  · rw [same]
    exact behind.insertions old isOld

/-- Text may be appended, which is behind every offset. -/
theorem append (behind : patch.Behind content offset) (text : Text) :
    (patch.append text).Behind content offset :=
  ⟨behind.source, append_sound behind.sound text, behind.overwrites, behind.insertions⟩

/-- **What stands before all edits is kept.** -/
theorem exists_output {before after : Text}
    (behind : patch.Behind (before ++ after) (Text.bytes before)) :
    ∃ later, patch.output = before ++ later := by
  have copied : spliced (insertedCellsAt patch.insertions) (writtenCells patch.overwrites) 0 before =
      SourceMap.copiedCells 0 before := by
    rw [spliced_congr (fun _ _ _ => rfl) fun place _ upTo => ?_, spliced_copied]
    · intro place _ upTo
      rw [insertedCellsAt, insertedAt_eq_nil]
      · rfl
      · intro entry member same
        have later := behind.insertions entry member
        omega
    · funext c
      apply writtenCells_of_outside
      intro edit member
      have later := behind.overwrites edit member
      omega
  rw [output_eq_map_char, behind.sound.cells_pieces, behind.source, splicedCells, spliced_append,
    copied, List.append_assoc, List.map_append, SourceMap.map_char_copiedCells]
  exact ⟨_, rfl⟩

end Behind

end Patch

namespace Stripped

variable {content : Text} {stripped : Stripped} {patch placed : Patch}

/-- What starts in the part that is read starts no earlier than the part. -/
theorem base_le_mapStart (stripped : Stripped) (offset : Nat) :
    stripped.base ≤ stripped.mapStart offset := Nat.le_add_right _ _

/-- What stops in the part that is read stops no earlier than the part starts. -/
theorem base_le_mapEnd (stripped : Stripped) (offset : Nat) :
    stripped.base ≤ stripped.mapEnd offset := Nat.le_add_right _ _

/-- A span that is not empty starts where it is mapped to, since saturation empties spans. -/
theorem base_le_mapSpan {span : Span}
    (nonempty : (stripped.mapSpan span).start < (stripped.mapSpan span).stop) :
    stripped.base ≤ (stripped.mapSpan span).start := by
  have from_ := stripped.base_le_mapStart span.start
  unfold mapSpan at nonempty ⊢
  split at nonempty
  case isFalse => exact absurd nonempty (Nat.lt_irrefl _)
  case isTrue less =>
    rw [if_pos less]
    simp only [Span.saturated, Offset.saturate] at nonempty ⊢
    omega

/-- The classes that are replaced stand in the part that was read. -/
theorem behind_renameGroups {usages : List Usage} (behind : patch.Behind content stripped.base)
    (done : renameGroups stripped usages patch = .ok placed) : placed.Behind content stripped.base := by
  induction usages generalizing patch with
  | nil =>
    obtain rfl := Except.ok.inj done
    exact behind
  | cons usage rest ih =>
    rw [renameGroups, List.foldlM_cons] at done
    cases left : Patch.unlessRefused (patch.overwrite (stripped.mapSpan usage.span).start
        (stripped.mapSpan usage.span).stop (groupName usage.group)) with
    | error refusal =>
      simp only [left] at done
      cases done
    | ok next =>
      simp only [left] at done
      have edited := Patch.unlessRefused_eq_ok_iff.mp left
      have can := (behind.sound.overwrite_eq_ok_iff.mp edited).1
      exact ih (behind.overwrite (base_le_mapSpan can.nonempty) edited) done

/-- The rules are put into the part that was read, or at the end. -/
theorem behind_placeRules {contentStart : Option Nat} {rules : Text} {site : RuleSite}
    (behind : patch.Behind content stripped.base)
    (done : patch.placeRules stripped contentStart rules = .ok (site, placed)) :
    placed.Behind content stripped.base := by
  unfold Patch.placeRules at done
  split at done
  case h_1 offset found =>
    obtain ⟨start, -, chosen⟩ := Option.bind_eq_some_iff.mp found
    have from_ : stripped.base ≤ offset := by
      rw [(eq_mapEnd_of_styleOffset? chosen).1]
      exact stripped.base_le_mapEnd start
    cases left : Patch.unlessRefused (patch.insert offset rules) with
    | error refusal =>
      rw [left] at done
      cases done
    | ok next =>
      rw [left] at done
      obtain ⟨-, rfl⟩ := Prod.mk.inj (Except.ok.inj done)
      exact behind.insert from_ (Patch.unlessRefused_eq_ok_iff.mp left)
  case h_2 =>
    obtain ⟨-, rfl⟩ := Prod.mk.inj (Except.ok.inj done)
    exact behind.append _

end Stripped

/-- No edit of a document is made before the part that was read. -/
theorem behind_hoistPatch {options : Options} {content : Text} {stripped : Stripped}
    {document : Document} {patch : Patch}
    (done : hoistPatch options content stripped document = .ok patch) :
    patch.Behind content stripped.base := by
  obtain ⟨renamed, replaced, renders⟩ := hoistPatch_eq_ok_iff.mp done
  have behind := Stripped.behind_renameGroups (Patch.Behind.ofSource content _) replaced
  rcases renders with ⟨-, rfl⟩ | ⟨-, site, placed⟩
  · exact behind
  · exact Stripped.behind_placeRules behind placed

/-- A first part of a text is renamed on its own. -/
theorem renameMarkers_append (options : Options) (first second : Text) :
    ∃ later, renameMarkers options (first ++ second) = renameMarkers options first ++ later := by
  rw [renameMarkers_eq, renameMarkers_eq, underscored_append]
  exact ⟨_, rfl⟩

/-- **Scripts at the start are opaque.** If a content is read from an offset on, it opens with
scripts up to there, every edit of it is made at that offset or behind it, and the result starts with
the renamed scripts. A content that is not read at all is its own result. -/
theorem hoist_leaves_scripts (options : Options) (content : Text) (file : Option String) :
    (∀ stop, ReadableRange.ofContent content = .after stop →
      ∃ scripts rest, LeadingScripts content scripts rest ∧ Text.bytes scripts = stop ∧
        ¬ scriptClosing <:+: rest ∧
        ∀ code map, hoist options content file = .ok ⟨code, map⟩ →
          let stripped := Stripped.ofDocument content stop
          ∃ document patch, read? stripped.text = .ok document ∧
            hoistPatch options content stripped document = .ok patch ∧
            (∀ edit ∈ patch.overwrites, stop ≤ edit.start) ∧
            (∀ entry ∈ patch.insertions, stop ≤ entry.offset) ∧
            code = renameMarkers options patch.output ∧
            Text.bytes (renameMarkers options scripts) = stop ∧
            ∃ later, code = renameMarkers options scripts ++ later) ∧
      (ReadableRange.ofContent content = .nothing →
        hoist options content file = .ok ⟨content, none⟩) := by
  refine ⟨fun stop after => ?_, fun nothing => ?_⟩
  · obtain ⟨scripts, rest, leading, isStop, noMore⟩ := leadingScripts_of_after after
    refine ⟨scripts, rest, leading, isStop, noMore, fun code map done => ?_⟩
    unfold hoist at done
    simp only [after, ReadableRange.start?] at done
    split at done
    case h_1 => cases done
    case h_2 document read =>
      split at done
      case h_1 => cases done
      case h_2 patch edited =>
        obtain ⟨rfl, -⟩ := Hoisted.mk.inj (Except.ok.inj done)
        -- All edits are behind the scripts, so the output starts with them.
        have behind : patch.Behind content stop := behind_hoistPatch edited
        have kept := behind
        rw [leading.whole, ← isStop] at kept
        obtain ⟨more, output⟩ := kept.exists_output
        refine ⟨document, patch, read, edited, behind.overwrites, behind.insertions, rfl, ?_, ?_⟩
        · rw [renameMarkers_eq, bytes_underscored, isStop]
        · rw [output]
          exact renameMarkers_append options scripts more
  · unfold hoist
    rw [nothing]
    rfl

/-- A script that declares TypeScript, and a component behind it. -/
def scriptedCard : Text := "<script lang='ts'></script> ".toList ++ card

/-- The script of the card stays as it is, and the rest is processed. -/
theorem hoist_leaves_scripts_card :
    ReadableRange.ofContent scriptedCard = .after 28 ∧
      ∃ code map, hoist ⟨true, true⟩ scriptedCard none = .ok ⟨code, map⟩ ∧
        ∃ scripts rest, LeadingScripts scriptedCard scripts rest ∧ Text.bytes scripts = 28 ∧
          ∃ later, code = renameMarkers ⟨true, true⟩ scripts ++ later := by
  have after : ReadableRange.ofContent scriptedCard = .after 28 := by decide +kernel
  have begins : (ReadableRange.ofContent scriptedCard).start? = some 28 := by
    rw [after]
    rfl
  have text : (Stripped.ofDocument scriptedCard 28).text = card := by decide +kernel
  obtain ⟨scripts, rest, leading, isStop, -, kept⟩ :=
    (hoist_leaves_scripts ⟨true, true⟩ scriptedCard none).1 28 after
  have small : Text.bytes scriptedCard ≤ Offset.limit := by decide +kernel
  rcases (hoist_accepts small ⟨true, true⟩ none).2 with
    ⟨⟨code, map⟩, done⟩ | ⟨start, faults, isStart, refused, -⟩
  · obtain ⟨document, patch, -, -, -, -, -, -, later⟩ := kept code map done
    exact ⟨after, code, map, done, scripts, rest, leading, isStop, later⟩
  · obtain rfl := Option.some.inj (begins.symm.trans isStart)
    rw [text, read?_card] at refused
    cases refused

end ClassHoist
