import ClassHoist.Proofs.Groups
import ClassHoist.Proofs.Promotion
import ClassHoist.Proofs.Synthesis

/-! # What rules are for

Two rules are for the same elements if they have the same direction and the same selector
(`GlobalRule.SameTarget`). The rules of one group never are, nor are those of marked classes, and no
marked class is called like a group. What is left is that two groups get one name
(`pairwise_documentRules`), since white space and colons are lost in it. So each target has one rule
exactly if the groups of a document have different names (`hoist_targets`).
-/

namespace ClassHoist

open Markup

/-- The rules are for the same elements. -/
def GlobalRule.SameTarget (first second : GlobalRule) : Prop :=
  first.direction = second.direction ∧ first.selector = second.selector

/-- Different classes have different selectors. -/
theorem classSelector_injective {name name' : Text} (same : classSelector name = classSelector name') :
    name = name' := by
  have escaped := congrArg unescape (List.cons.inj same).2
  rwa [unescape_escapeName, unescape_escapeName] at escaped

/-- No group is kept twice. -/
theorem nodup_eraseDups (groups : List Text) : groups.eraseDups.Nodup :=
  (pairwise_eraseDups groups).imp fun ⟨_, _, _, inFront, notInFront⟩ same =>
    notInFront (same ▸ inFront)

section Groups

variable {group : Text} {rtl : Bool} {rule : GlobalRule}

theorem directedRule?_eq_some {direction : Direction} (made : directedRule? group direction = some rule) :
    rule.direction = some direction ∧ rule.selector = classSelector (groupName group) := by
  unfold directedRule? at made
  simp only at made
  split at made
  · cases made
  · obtain rfl := Option.some.inj made
    exact ⟨rfl, rfl⟩

/-- The rules of a group are for its name. -/
theorem selector_of_mem_groupRules (member : rule ∈ groupRules group rtl) :
    rule.selector = classSelector (groupName group) := by
  rcases List.mem_cons.mp member with rfl | directed
  · rfl
  · split at directed
    · obtain ⟨direction, -, made⟩ := List.mem_filterMap.mp directed
      exact (directedRule?_eq_some made).2
    · cases directed

/-- A group has one rule for each direction. -/
theorem pairwise_groupRules (group : Text) (rtl : Bool) :
    (groupRules group rtl).Pairwise fun first second => first.direction ≠ second.direction := by
  refine List.pairwise_cons.mpr ⟨fun rule directed same => ?_, ?_⟩
  · split at directed
    · obtain ⟨direction, -, made⟩ := List.mem_filterMap.mp directed
      exact Option.some_ne_none direction ((directedRule?_eq_some made).1.symm.trans same.symm)
    · cases directed
  · split
    · have differ : Direction.all.Pairwise (· ≠ ·) := by decide
      refine List.pairwise_filterMap.mpr (differ.imp fun differ rule made rule' made' same => ?_)
      rw [(directedRule?_eq_some made).1, (directedRule?_eq_some made').1] at same
      exact differ (Option.some.inj same)
    · exact List.Pairwise.nil

end Groups

section Tokens

variable {marker marker' : Marker} {text : Text}

/-- Each marked class is found once. -/
theorem Marker.nodup_tokensIn (marker : Marker) (text : Text) : (marker.tokensIn text).Nodup := by
  refine List.pairwise_map.mpr ((nodup_eraseDups _).imp_of_mem ?_)
  intro found found' isMatch isMatch' differ same
  rw [List.mem_eraseDups] at isMatch isMatch'
  obtain ⟨token, rfl⟩ := exists_of_mem_matchesIn isMatch
  obtain ⟨token', rfl⟩ := exists_of_mem_matchesIn isMatch'
  rw [List.drop_left, List.drop_left] at same
  exact differ (congrArg (marker.lead ++ ·) same)

/-- A mark has one rule for each class. -/
theorem Marker.pairwise_rules (marker : Marker) (text : Text) :
    (marker.rules text).Pairwise fun first second => ¬ first.SameTarget second := by
  refine List.pairwise_map.mpr ((marker.nodup_tokensIn text).imp fun differ same => differ ?_)
  exact List.append_cancel_left (classSelector_injective same.2)

/-- Marks differ in their first letter. -/
theorem Marker.eq_of_head? (same : marker.renamedLead.head? = marker'.renamedLead.head?) :
    marker = marker' := by
  revert same
  rcases marker with (_ | _) | _ <;> rcases marker' with (_ | _) | _ <;> decide

theorem Marker.head?_renamedLead_append (marker : Marker) (token : Text) :
    (marker.renamedLead ++ token).head? = marker.renamedLead.head? := by
  rcases marker with (_ | _) | _ <;> rfl

/-- A class has one mark at its start. -/
theorem Marker.not_sameTarget_rules {rule rule' : GlobalRule} (differ : marker ≠ marker')
    (member : rule ∈ marker.rules text) (member' : rule' ∈ marker'.rules text) :
    ¬ rule.SameTarget rule' := by
  obtain ⟨token, -, rfl⟩ := exists_of_mem_rules member
  obtain ⟨token', -, rfl⟩ := exists_of_mem_rules member'
  rintro ⟨-, selector⟩
  have heads := congrArg List.head? (classSelector_injective selector)
  rw [head?_renamedLead_append, head?_renamedLead_append] at heads
  exact differ (eq_of_head? heads)

/-- **Marked classes.** Their rules are for different elements. -/
theorem pairwise_tokenRules (options : Options) (text : Text) :
    (tokenRules options text).Pairwise fun first second => ¬ first.SameTarget second := by
  have directed : (directedRules text).Pairwise fun first second => ¬ first.SameTarget second := by
    refine List.pairwise_flatMap.mpr ⟨fun direction _ => Marker.pairwise_rules _ text, ?_⟩
    have differ : Direction.all.Pairwise (· ≠ ·) := by decide
    refine differ.imp fun differ rule member rule' member' => ?_
    exact Marker.not_sameTarget_rules (mt Marker.direction.inj differ) member member'
  refine List.pairwise_append.mpr ⟨?_, ?_, fun rule member rule' member' => ?_⟩
  · split
    · exact directed
    · exact List.Pairwise.nil
  · split
    · exact Marker.pairwise_rules _ text
    · exact List.Pairwise.nil
  · split at member
    case isFalse => cases member
    case isTrue =>
      split at member'
      case isFalse => cases member'
      case isTrue =>
        obtain ⟨direction, -, inRules⟩ := List.mem_flatMap.mp member
        exact Marker.not_sameTarget_rules Marker.noConfusion inRules member'

end Tokens

section Document

variable {options : Options} {usages : List Usage} {text : Text}

/-- No marked class is called like a group. -/
theorem not_sameTarget_tokenRules {group : Text} {rtl : Bool} {rule rule' : GlobalRule}
    (member : rule ∈ groupRules group rtl) (member' : rule' ∈ tokenRules options text) :
    ¬ rule.SameTarget rule' := by
  obtain ⟨marker, -, inRules⟩ := exists_of_mem_tokenRules member'
  obtain ⟨token, -, rfl⟩ := Marker.exists_of_mem_rules inRules
  rintro ⟨-, selector⟩
  rw [selector_of_mem_groupRules member] at selector
  have heads := congrArg List.head? (classSelector_injective selector)
  rw [marker.head?_renamedLead_append] at heads
  revert heads
  rcases marker with (_ | _) | _ <;> exact fun heads => absurd (Option.some.inj heads) (by decide)

/-- **One target, two groups.** Only rules of two groups with one name are for the same elements. -/
theorem pairwise_documentRules (options : Options) (usages : List Usage) (text : Text) :
    (documentRules options usages text).Pairwise fun first second => first.SameTarget second →
      ∃ group ∈ usages.map Usage.group, ∃ group' ∈ usages.map Usage.group,
        group ≠ group' ∧ groupName group = groupName group' ∧
          first ∈ groupRules group options.rtl ∧ second ∈ groupRules group' options.rtl := by
  refine List.pairwise_append.mpr ⟨List.pairwise_flatMap.mpr ⟨fun group _ => ?_, ?_⟩, ?_, ?_⟩
  · exact (pairwise_groupRules group options.rtl).imp fun differ same => absurd same.1 differ
  · refine (nodup_eraseDups _).imp_of_mem fun {group group'} isGroup isGroup' differ rule member
      rule' member' same => ?_
    rw [List.mem_eraseDups] at isGroup isGroup'
    have selector := same.2
    rw [selector_of_mem_groupRules member, selector_of_mem_groupRules member'] at selector
    exact ⟨group, isGroup, group', isGroup', differ, classSelector_injective selector, member,
      member'⟩
  · split
    · exact (pairwise_tokenRules options _).imp fun differ same => absurd same differ
    · exact List.Pairwise.nil
  · intro rule member rule' member' same
    split at member'
    · obtain ⟨group, -, inRules⟩ := List.mem_flatMap.mp member
      exact absurd same (not_sameTarget_tokenRules inRules member')
    · cases member'

/-- **One rule for each target.** There is just one if different groups have different names. -/
theorem pairwise_not_sameTarget_iff :
    ((documentRules options usages text).Pairwise fun first second => ¬ first.SameTarget second) ↔
      ∀ group ∈ usages.map Usage.group, ∀ group' ∈ usages.map Usage.group,
        groupName group = groupName group' → group = group' := by
  constructor
  · intro apart group isGroup group' isGroup' same
    have fromGroups := (List.pairwise_flatMap.mp (List.pairwise_append.mp apart).1).2
    have names : ((usages.map Usage.group).eraseDups.map groupName).Nodup := by
      refine List.pairwise_map.mpr (fromGroups.imp fun {group group'} differ same => ?_)
      refine differ (plainRule group) List.mem_cons_self (plainRule group') List.mem_cons_self ?_
      exact ⟨rfl, congrArg classSelector same⟩
    rw [← List.mem_eraseDups] at isGroup isGroup'
    exact List.inj_on_of_nodup_map names isGroup isGroup' same
  · refine fun injective => (pairwise_documentRules options usages text).imp fun two same => ?_
    obtain ⟨group, isGroup, group', isGroup', differ, names, -⟩ := two same
    exact differ (injective group isGroup group' isGroup' names)

end Document

/-- **What the rules of a document are for.** Of the rules that are put into a document, only those of
two groups with one name are for the same elements. -/
theorem hoist_targets {options : Options} {content code : Text} {file : Option String}
    {map : SourceMap.Encoding} (done : hoist options content file = .ok ⟨code, some map⟩) :
    ∃ stripped document patch placed, Scans content stripped document patch ∧
      Renders options stripped document patch placed ∧
      code = renameMarkers options placed.output ∧
      let rules := documentRules options document.usages patch.output
      let groups := document.usages.map Usage.group
      (rules.Pairwise fun first second => first.SameTarget second →
        ∃ group ∈ groups, ∃ group' ∈ groups, group ≠ group' ∧ groupName group = groupName group' ∧
          first ∈ groupRules group options.rtl ∧ second ∈ groupRules group' options.rtl) ∧
      ((rules.Pairwise fun first second => ¬ first.SameTarget second) ↔
        ∀ group ∈ groups, ∀ group' ∈ groups, groupName group = groupName group' → group = group') := by
  rcases cases_of_hoist done with ⟨-, none⟩ | ⟨stripped, document, patch, placed, scans, renders, codeIs, -⟩
  · cases none
  · exact ⟨stripped, document, patch, placed, scans, renders, codeIs,
      pairwise_documentRules options document.usages patch.output, pairwise_not_sameTarget_iff⟩

/-- A text without directives and without TypeScript is scanned as the document it is read as. -/
theorem Scans.document_eq {content : Text} {stripped : Stripped} {document document' : Document}
    {patch : Patch} (scans : Scans content stripped document patch)
    (begins : (ReadableRange.ofContent content).start? = some 0)
    (none : Directive.pattern.find? content = none) (read : read? content = .ok document') :
    document = document' := by
  obtain ⟨start, begins', rfl⟩ := scans.begins
  obtain rfl : 0 = start := Option.some.inj (begins.symm.trans begins')
  have read' := scans.read
  rw [Stripped.ofDocument_eq none] at read'
  exact Except.ok.inj (read'.symm.trans read)

/-- One component with classes has one rule. -/
theorem hoist_targets_card : ∃ code map, hoist ⟨false, false⟩ card none = .ok ⟨code, some map⟩ ∧
    ∃ stripped document patch placed, Scans card stripped document patch ∧
      Renders ⟨false, false⟩ stripped document patch placed ∧
      code = renameMarkers ⟨false, false⟩ placed.output ∧
      document.usages.map Usage.group = [['b']] ∧
      (documentRules ⟨false, false⟩ document.usages patch.output).Pairwise
        fun first second => ¬ first.SameTarget second := by
  obtain ⟨code, map, done⟩ := hoist_card
  obtain ⟨stripped, document, patch, placed, scans, renders, codeIs, -, distinct⟩ :=
    hoist_targets done
  have groups : document.usages.map Usage.group = [['b']] := by
    rw [scans.document_eq rfl rfl read?_card]
    rfl
  refine ⟨code, map, done, stripped, document, patch, placed, scans, renders, codeIs, groups,
    distinct.mpr ?_⟩
  rw [groups]
  decide

/-- Two components with groups that differ in a sign that names do not keep. -/
def nearTwins : Text :=
  ['<', 'A', ' ', 'c', 'l', 'a', 's', 's', '=', 'a', ':', 'b', '/', '>',
    '<', 'B', ' ', 'c', 'l', 'a', 's', 's', '=', 'a', '-', 'b', '/', '>']

/-- The attribute `class` at an offset with three characters of text. -/
def classOf (start : Nat) (raw : String) : Attribute :=
  .named ⟨start, start + 9⟩ "class" (.text ⟨⟨start + 6, start + 9⟩, raw⟩)

theorem openTag_nearTwins :
    openTag (Cursor.start nearTwins) =
        ⟨some ⟨0, "A", [classOf 3 "a:b"], true⟩, [], ⟨14, nearTwins.drop 14⟩⟩ ∧
      openTag ⟨14, nearTwins.drop 14⟩ = ⟨some ⟨14, "B", [classOf 17 "a-b"], true⟩, [], ⟨28, []⟩⟩ := by
  constructor
  · have first : attribute? (Cursor.start nearTwins).bump.bump =
        some ⟨some (classOf 3 "a:b"), [], ⟨12, nearTwins.drop 12⟩⟩ := by rfl
    have last : attribute? ⟨12, nearTwins.drop 12⟩ = none := by rfl
    exact openTag_of_attribute? rfl first last rfl
  · have first : attribute? (Cursor.bump (Cursor.bump ⟨14, nearTwins.drop 14⟩)) =
        some ⟨some (classOf 17 "a-b"), [], ⟨26, nearTwins.drop 26⟩⟩ := by rfl
    have last : attribute? ⟨26, nearTwins.drop 26⟩ = none := by rfl
    exact openTag_of_attribute? rfl first last rfl

theorem read?_nearTwins : read? nearTwins = .ok ⟨none, none, none,
    ⟨[.element ⟨0, 14⟩ (.component "A" true) [classOf 3 "a:b"] [],
      .element ⟨14, 28⟩ (.component "B" true) [classOf 17 "a-b"] []], ⟨0, 28⟩⟩⟩ := by
  obtain ⟨first, second⟩ := openTag_nearTwins
  have stepped : (Draft.start nearTwins).step = some (Draft.start nearTwins).readElement := by rfl
  have element : (Draft.start nearTwins).readElement = ⟨⟨14, nearTwins.drop 14⟩, [],
      [.element ⟨0, 14⟩ (.component "A" true) [classOf 3 "a:b"] []], none, none, none, []⟩ := by
    unfold Draft.readElement
    rw [show (Draft.start nearTwins).cursor = Cursor.start nearTwins from rfl, first]
    rfl
  let draft : Draft := ⟨⟨14, nearTwins.drop 14⟩, [],
      [.element ⟨0, 14⟩ (.component "A" true) [classOf 3 "a:b"] []], none, none, none, []⟩
  have stepped' : draft.step = some draft.readElement := by rfl
  have element' : draft.readElement = ⟨⟨28, []⟩, [],
      [.element ⟨14, 28⟩ (.component "B" true) [classOf 17 "a-b"] [],
        .element ⟨0, 14⟩ (.component "A" true) [classOf 3 "a:b"] []], none, none, none, []⟩ := by
    unfold Draft.readElement
    rw [show draft.cursor = ⟨14, nearTwins.drop 14⟩ from rfl, second]
    rfl
  unfold read? Markup.read
  rw [Draft.run_of_step stepped, element, Draft.run_of_step stepped', element',
    Draft.run_of_step_eq_none (by rfl)]
  rfl

/-- Two groups may have one name, and then rules for the same elements. -/
theorem hoist_nearTwins :
    ∃ code map, hoist ⟨false, false⟩ nearTwins none = .ok ⟨code, some map⟩ ∧
      ∀ stripped document patch, Scans nearTwins stripped document patch →
        ¬ (documentRules ⟨false, false⟩ document.usages patch.output).Pairwise
          fun first second => ¬ first.SameTarget second := by
  have begins : (ReadableRange.ofContent nearTwins).start? = some 0 := by rfl
  have noDirective : Directive.pattern.find? nearTwins = none := by rfl
  obtain ⟨map, done⟩ := exists_hoist_of_read? (by decide) begins noDirective read?_nearTwins
    ⟨false, false⟩ none
  refine ⟨_, map, done, fun stripped document patch scans distinct => ?_⟩
  have groups : document.usages.map Usage.group = [['a', ':', 'b'], ['a', '-', 'b']] := by
    rw [scans.document_eq begins noDirective read?_nearTwins]
    rfl
  rw [pairwise_not_sameTarget_iff, groups] at distinct
  exact absurd distinct (by decide)

end ClassHoist
