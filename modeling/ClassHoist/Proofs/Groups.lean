import ClassHoist.Proofs.Rendering
import ClassHoist.Proofs.Tracing

/-! # The rules of the groups

In a processed document the name of its group stands in place of the classes handed to a component,
and the rules that were added define each group once, under that name, however often it was used
(`hoist_groups`).
-/

namespace ClassHoist

open Markup SourceMap

/-- Each value is kept once, in order of first appearance. -/
theorem pairwise_eraseDups {α : Type} [BEq α] [LawfulBEq α] (entries : List α) :
    entries.eraseDups.Pairwise fun first second =>
      ∃ before after, entries = before ++ after ∧ first ∈ before ∧ second ∉ before := by
  induction counted : entries.length using Nat.strongRecOn generalizing entries with
  | ind count ih =>
    cases entries with
    | nil => exact List.Pairwise.nil
    | cons entry rest =>
      have shorter := List.length_filter_le (fun other => !other == entry) rest
      rw [List.length_cons] at counted
      have others := ih _ (by omega) (rest.filter fun other => !other == entry) rfl
      have differs {other : α}
          (member : other ∈ (rest.filter fun other => !other == entry).eraseDups) :
          other ≠ entry := by
        rw [List.mem_eraseDups] at member
        have kept := (List.mem_filter.mp member).2
        rwa [Bool.not_eq_true', beq_eq_false_iff_ne] at kept
      rw [List.eraseDups_cons]
      refine List.pairwise_cons.mpr ⟨fun other member => ?_, others.imp_of_mem ?_⟩
      · exact ⟨[entry], rest, rfl, List.mem_singleton_self _,
          fun inFront => differs member (List.mem_singleton.mp inFront)⟩
      · rintro first second isFirst isSecond ⟨before, after, split, inBefore, notBefore⟩
        obtain ⟨front, back, rfl, rfl, -⟩ := List.filter_eq_append_iff.mp split
        refine ⟨entry :: front, back, rfl,
          List.mem_cons_of_mem _ (List.mem_of_mem_filter inBefore), fun inFront => ?_⟩
        rcases List.mem_cons.mp inFront with same | later
        · exact differs isSecond same
        · refine notBefore (List.mem_filter.mpr ⟨later, ?_⟩)
          rw [Bool.not_eq_true', beq_eq_false_iff_ne]
          exact differs isSecond

namespace Patch

/-- Text inserted at one place splits the rest of the output in two. -/
theorem exists_splice_insertion (edits : List Overwrite) {offset : Nat} {content : Text}
    (rules : Text) (boundary : Text.isBoundary content offset = true) :
    ∃ front back, splice edits [] content = front ++ back ∧
      splice edits [⟨offset, rules⟩] content = front ++ (rules ++ back) := by
  obtain ⟨before, after, rfl, rfl⟩ := Text.isBoundary_iff.mp boundary
  have nowhere {place : Nat} (other : place ≠ Text.bytes before) :
      insertedAt [⟨Text.bytes before, rules⟩] place = insertedAt [] place := by
    rw [insertedAt_cons, if_neg (Ne.symm other)]
    rfl
  have here : insertedAt [⟨Text.bytes before, rules⟩] (Text.bytes before) = rules := by
    rw [insertedAt_cons, if_pos rfl]
    exact List.append_nil _
  have inFront : spliced (insertedAt [⟨Text.bytes before, rules⟩]) (writtenAt edits) 0 before =
      spliced (insertedAt []) (writtenAt edits) 0 before :=
    spliced_congr (fun place _ upTo => nowhere (by omega)) fun _ _ _ => rfl
  refine ⟨spliced (insertedAt []) (writtenAt edits) 0 before,
    spliced (insertedAt []) (writtenAt edits) (Text.bytes before) after, ?_, ?_⟩
  · rw [splice, spliced_append, Nat.zero_add]
    exact List.append_nil _
  · rw [splice, spliced_append, Nat.zero_add, inFront, List.append_assoc]
    congr 1
    cases after with
    | nil =>
      rw [List.append_nil, here]
      exact (List.append_nil _).symm
    | cons c rest =>
      have positive := c.utf8Size_pos
      have behind :
          spliced (insertedAt [⟨Text.bytes before, rules⟩]) (writtenAt edits)
              (Text.bytes before + c.utf8Size) rest =
            spliced (insertedAt []) (writtenAt edits) (Text.bytes before + c.utf8Size) rest :=
        spliced_congr (fun place from_ _ => nowhere (by omega)) fun _ _ _ => rfl
      have atEnd :
          insertedAt [⟨Text.bytes before, rules⟩] (Text.bytes (before ++ c :: rest)) = [] := by
        rw [nowhere]
        · rfl
        · rw [Text.bytes_append, Text.bytes_cons]
          omega
      rw [spliced, spliced, here, behind, atEnd, List.append_nil]
      rfl

/-- Only what is inserted at the end of an overwritten range stands between its replacement and
what follows. -/
theorem Sound.place_stop {patch : Patch} (sound : patch.Sound) {edit : Overwrite}
    (member : edit ∈ patch.overwrites) :
    patch.place edit.stop =
      patch.place edit.start + Text.bytes edit.text +
        Text.bytes (insertedAt patch.insertions edit.stop) := by
  obtain ⟨isStart, isStop⟩ := sound.bounded edit member
  obtain ⟨before, part, after, whole, startIs, stopIs⟩ := Text.exists_parts_of_isBoundary isStart
    isStop (Nat.le_of_lt (sound.nonempty edit member))
  have replaced := sound.splicedCells_overwrite member ⟨before, after, whole, startIs, stopIs⟩
  have first : Text.splitAt? edit.start patch.source = some (before, part ++ after) :=
    Text.splitAt?_eq_some_iff.mpr ⟨whole, startIs⟩
  have second : Text.splitAt? edit.stop patch.source = some (before ++ part, after) := by
    refine Text.splitAt?_eq_some_iff.mpr ⟨by rw [whole, List.append_assoc], ?_⟩
    rw [Text.bytes_append, startIs, stopIs]
  unfold place
  rw [first, second]
  simp only
  rw [splicedCells_append, Nat.zero_add, startIs, replaced]
  simp only [List.map_append, Text.bytes_append, map_char_replacedCells, insertedCellsAt,
    map_char_insertedCells]
  omega

end Patch

/-- Wherever rules are put, they and the text around them are renamed on their own. -/
theorem GlobalRule.exists_renamed (options : Options) {rewritten output : Text}
    {rules : List GlobalRule}
    (placed : (∃ front back, rewritten = front ++ back ∧
        output = front ++ (renderAll rules ++ back)) ∨
      output = rewritten ++ if renderAll rules = [] then []
        else "<style>".toList ++ renderAll rules ++ "</style>".toList) :
    ∃ front back, rewritten = front ++ back ∧
      let added := rules.flatMap fun rule => renameMarkers options rule.render
      (renameMarkers options output =
          renameMarkers options front ++ (added ++ renameMarkers options back) ∨
        (back = [] ∧ renameMarkers options output =
          renameMarkers options front ++ ("<style>".toList ++ added ++ "</style>".toList))) := by
  by_cases none : rules = []
  · subst none
    have same : output = rewritten := by
      rcases placed with ⟨front, back, rfl, rfl⟩ | rfl
      · rfl
      · exact List.append_nil _
    refine ⟨rewritten, [], (List.append_nil _).symm, .inl ?_⟩
    rw [same, @renameMarkers_of_no_colon options [] List.not_mem_nil]
    exact (List.append_nil _).symm
  · rcases placed with ⟨front, back, split, rfl⟩ | rfl
    · refine ⟨front, back, split, .inl ?_⟩
      rw [renameMarkers_append_renderAll options front none, renameMarkers_renderAll]
    · refine ⟨rewritten, [], (List.append_nil _).symm, .inr ⟨rfl, ?_⟩⟩
      have opened : "<style>".toList = '<' :: "style>".toList := by decide
      have tag : renameMarkers options "style>".toList = "style>".toList :=
        renameMarkers_of_no_colon options (by decide)
      have closed : renameMarkers options "</style>".toList = "</style>".toList :=
        renameMarkers_of_no_colon options (by decide)
      rw [if_neg (mt renderAll_eq_nil_iff.mp none), opened, List.append_assoc, List.cons_append,
        renameMarkers_append_cons (c := '<') options (by decide) (by decide),
        renameMarkers_append_renderAll options _ none, renameMarkers_renderAll, tag, closed]
      simp only [List.cons_append, List.append_assoc]

/-- **One name and one set of rules for each group.** -/
theorem hoist_groups {content : Text} (small : content.bytes ≤ Offset.limit) {options : Options}
    {file : Option String} {code : Text} {map : Encoding}
    (done : hoist options content file = .ok ⟨code, some map⟩) :
    ∃ start document, (ReadableRange.ofContent content).start? = some start ∧
      read? (Stripped.ofDocument content start).text = .ok document ∧
      let stripped := Stripped.ofDocument content start
      let range (usage : Usage) : Span := stripped.mapSpan usage.span
      let patch := documentPatch options content stripped document
      let rewritten := Patch.splice (document.usages.map stripped.edit) [] content
      let groups := (document.usages.map Usage.group).eraseDups
      let rendered (rules : List GlobalRule) : Text :=
        rules.flatMap fun rule => renameMarkers options rule.render
      let added := groups.flatMap (fun group => rendered (groupRules group options.rtl)) ++
        rendered (if options.scansTokens
          then tokenRules options (Directive.strip rewritten) else [])
      code = renameMarkers options patch.output ∧
      -- The groups are distinct and come in the order in which they were found.
      (∀ group, group ∈ groups ↔ ∃ usage ∈ document.usages, usage.group = group) ∧
      (groups.Pairwise fun first second => ∃ before after,
        document.usages.map Usage.group = before ++ after ∧ first ∈ before ∧ second ∉ before) ∧
      -- The rules of the groups and the rules of the marked classes are added in one place.
      (∃ front back, rewritten = front ++ back ∧
        (code = renameMarkers options front ++ (added ++ renameMarkers options back) ∨
          (back = [] ∧ code =
            renameMarkers options front ++ ("<style>".toList ++ added ++ "</style>".toList)))) ∧
      ∀ usage ∈ document.usages,
        -- The name of the group takes the place of the classes.
        Text.Stands code (patch.place (range usage).start)
          (patch.place (range usage).start + Text.bytes (groupName usage.group))
          (groupName usage.group) ∧
        patch.place (range usage).stop =
          patch.place (range usage).start + Text.bytes (groupName usage.group) +
            Text.bytes (Patch.insertedAt patch.insertions (range usage).stop) ∧
        -- One rule is for no direction, and at most one for each if directions are supported.
        (∃ directed, groupRules usage.group options.rtl = plainRule usage.group :: directed ∧
          (directed.map GlobalRule.direction).Sublist
            (if options.rtl then [some Direction.rtl, some Direction.ltr] else [])) ∧
        -- The rule for no direction is for the same name, and applies what has no mark for one.
        ∃ selector, unescape selector = groupName usage.group ∧
          renameMarkers options (plainRule usage.group).render =
            " :global(.".toList ++ selector ++ ") \x7b @apply ".toList ++
              renameMarkers options (joinTokens (undirected usage.group)) ++ "; \x7d".toList := by
  obtain ⟨start, document, begins, read, readable, rfl, -⟩ := exists_of_hoist small done
  refine ⟨start, document, begins, read, ?_⟩
  intro stripped range patch rewritten groups rendered added
  have sound := readable.documentPatch_sound options
  have overwritesAre := overwrites_documentPatch options content stripped document
  have rulesAre : renderedRules options content stripped document =
      GlobalRule.renderAll (documentRules options document.usages rewritten) := by
    rw [renderedRules, readable.edits_sound.output_eq_splice, List.append_nil]
  refine ⟨rfl, ?_, pairwise_eraseDups _, ?_, ?_⟩
  · intro group
    rw [List.mem_eraseDups, List.mem_map]
  · have placed : (∃ front back, rewritten = front ++ back ∧
        patch.output = front ++
          (GlobalRule.renderAll (documentRules options document.usages rewritten) ++ back)) ∨
        patch.output = rewritten ++
          if GlobalRule.renderAll (documentRules options document.usages rewritten) = [] then []
          else "<style>".toList ++
            GlobalRule.renderAll (documentRules options document.usages rewritten) ++
              "</style>".toList := by
      rw [← rulesAre]
      rcases readable.output_documentPatch options with ⟨offset, -, boundary, whole⟩ | whole
      · obtain ⟨front, back, split, output⟩ :=
          Patch.exists_splice_insertion (document.usages.map stripped.edit)
            (renderedRules options content stripped document) boundary
        exact .inl ⟨front, back, split, whole.trans output⟩
      · exact .inr whole
    have addedIs : (documentRules options document.usages rewritten).flatMap
        (fun rule => renameMarkers options rule.render) = added := by
      rw [documentRules, List.flatMap_append, List.flatMap_assoc]
    rw [← addedIs]
    exact GlobalRule.exists_renamed options placed
  · intro usage isUsage
    have member : stripped.edit usage ∈ patch.overwrites := by
      rw [overwritesAre]
      exact List.mem_map_of_mem isUsage
    obtain ⟨front, back, cells, placed⟩ := sound.exists_replaced member
    have stands := Patch.stands_renamed options cells (not_mem_groupName (.inl rfl))
    rw [placed] at stands
    exact ⟨stands, sound.place_stop member, exists_groupRules _ _, _,
      unescape_escapeName _, renameMarkers_plainRule options _⟩

/-- The class handed to a component has a rule. -/
theorem hoist_groups_card :
    Text.bytes card ≤ Offset.limit ∧ ∃ code map,
      hoist ⟨false, false⟩ card none = .ok ⟨code, some map⟩ ∧
      ∃ document, read? (Stripped.ofDocument card 0).text = .ok document ∧
        document.usages.map Usage.group = [['b']] ∧
        ∀ usage ∈ document.usages, ∃ selector, unescape selector = groupName usage.group ∧
          renameMarkers ⟨false, false⟩ (plainRule usage.group).render =
            " :global(.".toList ++ selector ++ ") \x7b @apply ".toList ++
              renameMarkers ⟨false, false⟩ (joinTokens (undirected usage.group)) ++
                "; \x7d".toList := by
  have small : Text.bytes card ≤ Offset.limit := by decide
  obtain ⟨code, map, done⟩ := hoist_card
  obtain ⟨start, document, begins, read, -, -, -, -, usages⟩ := hoist_groups small done
  obtain rfl : start = 0 := (Option.some.inj begins).symm
  exact ⟨small, code, map, done, document, read, groups_card read,
    fun usage member => (usages usage member).2.2.2⟩

end ClassHoist
