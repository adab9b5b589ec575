import ClassHoist.Proofs.Rendering
import Mathlib

/-! # Rules for marked classes

A marked class gets a rule of its own, under the name that the class has once its mark is renamed.
Renaming goes over the whole document, though, and so over marks further in: the rule is for the
class as the finished document has it exactly if no other mark of the class is renamed
(`className_of_mem_tokenRules`).
-/

namespace ClassHoist

/-- The name of the class that the selector of a rule is for. -/
def GlobalRule.className (rule : GlobalRule) : Text := unescape rule.selector.tail

/-- The rule of a marked class is for the class with its mark renamed. -/
theorem Marker.className_rule (marker : Marker) (token : Text) :
    (marker.rule token).className = marker.renamedLead ++ token :=
  unescape_escapeName _

variable {options : Options} {marker : Marker} {text : Text}

/-- Behind a mark that is renamed, the rest of a class is renamed as if it stood alone. -/
theorem renameMarkers_lead_append (enabled : marker ∈ options.markers) (token : Text) :
    renameMarkers options (marker.lead ++ token) =
      marker.renamedLead ++ renameMarkers options token := by
  have named : marker.name ∈ options.names := List.mem_map_of_mem enabled
  have ends : options.names.any (fun name => name.reverse.isPrefixOf marker.name.reverse) = true :=
    List.any_eq_true.mpr ⟨_, named, List.isPrefixOf_iff_prefix.mpr List.prefix_rfl⟩
  have later := underscored_append_cons (options.not_mem_names (c := ':') (by decide)) []
    marker.name.reverse token
  rw [renameMarkers_eq, renameMarkers_eq, Marker.lead, Marker.renamedLead, List.append_assoc,
    underscored_append, underscored_of_no_colon _ _ marker.colon_not_mem_name, List.append_nil,
    List.singleton_append, underscored, if_pos ⟨rfl, ends⟩, ← List.nil_append (':' :: _), later,
    List.append_assoc]
  rfl

/-- A text stays as it is if none of its colons stands directly after one of the names. -/
theorem underscored_eq_self_iff {names : List Text} {seen : Text} :
    underscored names seen text = text ↔ ∀ before after, text = before ++ ':' :: after →
      ∀ name ∈ names, ¬ name <:+ seen.reverse ++ before := by
  induction text generalizing seen with
  | nil =>
    refine iff_of_true rfl fun before after split => ?_
    exact absurd split (List.append_ne_nil_of_right_ne_nil before (List.cons_ne_nil _ _)).symm
  | cons c rest ih =>
    have first : (if c = ':' ∧ names.any (fun name => name.reverse.isPrefixOf seen) then '_' else c)
        = c ↔ (c = ':' → ∀ name ∈ names, ¬ name <:+ seen.reverse) := by
      by_cases colon : c = ':'
      · have ends (name : Text) : name.reverse <+: seen ↔ name <:+ seen.reverse := by
          rw [← List.reverse_suffix, List.reverse_reverse]
        simp [colon, List.any_eq_true, ends]
      · simp [colon]
    rw [underscored, List.cons.injEq, first, ih]
    constructor
    · rintro ⟨here, later⟩ before after split
      cases before with
      | nil =>
        rw [List.append_nil]
        exact here (List.cons.inj split).1
      | cons d before =>
        obtain ⟨rfl, rest_⟩ := List.cons.inj split
        have inRest := later before after rest_
        rwa [List.reverse_cons, List.append_assoc] at inRest
    · intro all
      refine ⟨fun colon => ?_, fun before after split => ?_⟩
      · have atFront := all [] rest (by rw [colon, List.nil_append])
        rwa [List.append_nil] at atFront
      · rw [List.reverse_cons, List.append_assoc]
        exact all (c :: before) after (by rw [split, List.cons_append])

/-- Renaming leaves a text alone if no enabled mark stands in it, and changes it otherwise. -/
theorem renameMarkers_eq_self_iff :
    renameMarkers options text = text ↔ ∀ marker ∈ options.markers, ¬ marker.lead <:+: text := by
  rw [renameMarkers_eq, underscored_eq_self_iff]
  constructor
  · rintro alone marker enabled ⟨front, after, split⟩
    refine alone (front ++ marker.name) after ?_ marker.name (List.mem_map_of_mem enabled) ?_
    · rw [← split, Marker.lead]
      simp only [List.append_assoc, List.singleton_append]
    · exact List.suffix_append front marker.name
  · intro absent before after split name named ends
    obtain ⟨marker, enabled, rfl⟩ := List.mem_map.mp named
    obtain ⟨front, rfl⟩ := ends
    refine absent marker enabled ⟨front, after, ?_⟩
    rw [split, Marker.lead]
    simp only [List.append_assoc, List.singleton_append]

/-- Every match was read somewhere. -/
theorem Pattern.exists_read_of_mem_matchesIn {pattern : Pattern} {found : Text}
    (member : found ∈ pattern.matchesIn text) :
    ∃ input rest, pattern.read input = some (found, rest) := by
  have ofFind {text before found after : Text}
      (located : pattern.find? text = some (before, found, after)) :
      ∃ input rest, pattern.read input = some (found, rest) := by
    induction text generalizing before with
    | nil => cases located
    | cons c rest ih =>
      unfold find? at located
      split at located
      case h_1 matched =>
        cases located
        exact ⟨_, _, matched⟩
      case h_2 =>
        obtain ⟨⟨before, found, after⟩, later, same⟩ := Option.map_eq_some_iff.mp located
        cases same
        exact ih later
  rw [matchesIn] at member
  fun_induction hits pattern text with
  | case1 => cases member
  | case2 text before first after located _ more tail same ih =>
    rw [List.map_cons] at member
    rcases List.mem_cons.mp member with rfl | later
    · exact ofFind located
    · rw [same] at ih
      exact ih later

/-- A match of a marked class starts with its mark. -/
theorem Marker.exists_of_mem_matchesIn {found : Text}
    (member : found ∈ marker.tokenPattern.matchesIn text) :
    ∃ token, found = marker.lead ++ token := by
  obtain ⟨input, rest, matched⟩ := Pattern.exists_read_of_mem_matchesIn member
  obtain ⟨behind, -, matched⟩ := Option.bind_eq_some_iff.mp matched
  dsimp only at matched
  split at matched
  · cases matched
  · cases matched
    exact ⟨_, rfl⟩

/-- The rules of a mark are those of the matches of its classes. -/
theorem Marker.exists_of_mem_rules {rule : GlobalRule} (made : rule ∈ marker.rules text) :
    ∃ token, marker.lead ++ token ∈ marker.tokenPattern.matchesIn text ∧
      rule = marker.rule token := by
  obtain ⟨token, inText, rfl⟩ := List.mem_map.mp made
  obtain ⟨found, isMatch, rfl⟩ := List.mem_map.mp inText
  rw [List.mem_eraseDups] at isMatch
  obtain ⟨token, rfl⟩ := exists_of_mem_matchesIn isMatch
  rw [List.drop_left]
  exact ⟨token, isMatch, rfl⟩

/-- Rules are made for marks that are enabled. -/
theorem exists_of_mem_tokenRules {rule : GlobalRule} (made : rule ∈ tokenRules options text) :
    ∃ marker ∈ options.markers, rule ∈ marker.rules text := by
  unfold tokenRules at made
  unfold Options.markers
  rcases List.mem_append.mp made with directed | isGlobal
  · split at directed
    case isFalse => cases directed
    case isTrue enabled =>
      obtain ⟨direction, -, inRules⟩ := List.mem_flatMap.mp directed
      refine ⟨.direction direction, List.mem_append_left _ ?_, inRules⟩
      rw [if_pos enabled]
      cases direction with
      | rtl => exact List.mem_cons_of_mem _ List.mem_cons_self
      | ltr => exact List.mem_cons_self
  · split at isGlobal
    case isFalse => cases isGlobal
    case isTrue enabled =>
      refine ⟨.global, List.mem_append_right _ ?_, isGlobal⟩
      rw [if_pos enabled]
      exact List.mem_cons_self

/-- **What the rules of marked classes are for.** -/
theorem className_of_mem_tokenRules {rule : GlobalRule} (made : rule ∈ tokenRules options text) :
    ∃ marker ∈ options.markers, ∃ token,
      marker.lead ++ token ∈ marker.tokenPattern.matchesIn text ∧ rule = marker.rule token ∧
        (rule.className = renameMarkers options (marker.lead ++ token) ↔
          ∀ other ∈ options.markers, ¬ other.lead <:+: token) := by
  obtain ⟨marker, enabled, inRules⟩ := exists_of_mem_tokenRules made
  obtain ⟨token, member, rfl⟩ := Marker.exists_of_mem_rules inRules
  refine ⟨marker, enabled, token, member, rfl, ?_⟩
  rw [Marker.className_rule, renameMarkers_lead_append enabled, List.append_cancel_left_eq, eq_comm]
  exact renameMarkers_eq_self_iff

/-- The rule for a class marked `gl:` has the name that renaming gives it, if the class holds no
further mark. -/
theorem className_of_mem_tokenRules_global :
    let rule := Marker.global.rule "sm:p-2".toList
    rule ∈ tokenRules ⟨true, true⟩ "gl:sm:p-2".toList ∧ ∃ marker ∈ Options.markers ⟨true, true⟩,
      ∃ token, marker.lead ++ token ∈ marker.tokenPattern.matchesIn "gl:sm:p-2".toList ∧
        rule = marker.rule token ∧
          (rule.className = renameMarkers ⟨true, true⟩ (marker.lead ++ token) ↔
            ∀ other ∈ Options.markers ⟨true, true⟩, ¬ other.lead <:+: token) := by
  intro rule
  have rules : tokenRules ⟨true, true⟩ "gl:sm:p-2".toList = [rule] := by cbv
  have made : rule ∈ tokenRules ⟨true, true⟩ "gl:sm:p-2".toList := by
    rw [rules]
    exact List.mem_singleton_self rule
  exact ⟨made, className_of_mem_tokenRules made⟩

/-- A global class that is also marked for a direction gets a rule for another name than it has in
the finished document. -/
theorem className_ne_of_inner_mark :
    let rule := Marker.global.rule "rtl:ml-2".toList
    rule ∈ tokenRules ⟨true, true⟩ "gl:rtl:ml-2".toList ∧
      rule.className ≠ renameMarkers ⟨true, true⟩ "gl:rtl:ml-2".toList := by
  intro rule
  have rules : tokenRules ⟨true, true⟩ "gl:rtl:ml-2".toList =
      [(Marker.direction .rtl).rule "ml-2".toList, rule] := by cbv
  constructor
  · rw [rules]
    exact List.mem_cons_of_mem _ (List.mem_singleton_self rule)
  · rw [Marker.className_rule, renameMarkers_eq]
    decide

end ClassHoist
