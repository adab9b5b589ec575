import ClassHoist.Proofs.Promotion
import ClassHoist.Proofs.Synthesis

/-! # Documents without rules

No rule is made for a document exactly if no component in it is given classes and what is left of it
without directives has no mark with a class behind it (`documentRules_eq_nil_iff`). Renaming asks for
less than that: it changes every enabled mark, wherever it stands. So a document without rules is
renamed only, and left alone exactly if no enabled mark stands in it (`hoist_of_no_rules`).
-/

namespace ClassHoist

open Markup

namespace Pattern

variable {pattern : Pattern} {text : Text}

theorem read_nil (pattern : Pattern) : pattern.read [] = none := by
  cases matched : pattern.read [] with
  | none => rfl
  | some parts =>
    obtain ⟨found, rest⟩ := parts
    have empty := List.append_eq_nil_iff.mp (pattern.read_append matched)
    exact absurd empty.1 (pattern.read_ne_nil matched)

/-- Nothing is found if no match can be read anywhere. -/
theorem find?_eq_none_iff :
    pattern.find? text = none ↔ ∀ rest, rest <:+ text → pattern.read rest = none := by
  induction text with
  | nil =>
    refine iff_of_true rfl fun rest isSuffix => ?_
    rw [List.suffix_nil.mp isSuffix]
    exact pattern.read_nil
  | cons c text ih =>
    cases matched : pattern.read (c :: text) with
    | some parts =>
      obtain ⟨found, after⟩ := parts
      rw [find?_of_read matched]
      refine iff_of_false (Option.some_ne_none _) fun none => ?_
      exact Option.some_ne_none _ (matched.symm.trans (none _ List.suffix_rfl))
    | none =>
      rw [find?_of_read_eq_none matched, Option.map_eq_none_iff, ih]
      constructor
      · intro none rest isSuffix
        rcases List.suffix_cons_iff.mp isSuffix with rfl | inText
        · exact matched
        · exact none rest inText
      · exact fun none rest isSuffix => none rest (isSuffix.trans (List.suffix_cons c text))

theorem matchesIn_eq_nil_iff : pattern.matchesIn text = [] ↔ pattern.find? text = none := by
  cases located : pattern.find? text with
  | none => exact iff_of_true (by rw [matchesIn, hits_of_find?_eq_none located]; rfl) rfl
  | some parts =>
    obtain ⟨before, found, after⟩ := parts
    refine iff_of_false (fun none => ?_) (Option.some_ne_none _)
    rw [matchesIn, hits_of_find? located] at none
    cases none

end Pattern

namespace Marker

variable {marker : Marker} {text : Text}

/-- A marked class can be read where the mark stands in front of a character of a class. -/
theorem read_tokenPattern_eq_none_iff :
    marker.tokenPattern.read text = none ↔
      ∀ c rest, isTokenChar c = true → text ≠ marker.lead ++ c :: rest := by
  unfold tokenPattern
  simp only [Option.bind_eq_none_iff, ite_eq_left_iff, reduceCtorEq, imp_false, not_not]
  constructor
  · rintro none c rest isToken rfl
    have empty := none _ (Text.dropLead?_eq_some.mpr rfl)
    rw [List.takeWhile_cons_of_pos isToken] at empty
    cases empty
  · intro none rest starts
    cases rest with
    | nil => rfl
    | cons c rest =>
      have notToken : ¬ isTokenChar c = true := fun isToken =>
        none c rest isToken (Text.dropLead?_eq_some.mp starts)
      rw [List.takeWhile_cons_of_neg notToken]
      rfl

/-- There are no rules for a mark if it stands nowhere in front of a character of a class. -/
theorem rules_eq_nil_iff :
    marker.rules text = [] ↔
      ∀ c, isTokenChar c = true → ¬ marker.lead ++ [c] <:+: text := by
  have noTokens : marker.rules text = [] ↔ marker.tokenPattern.matchesIn text = [] := by
    rw [rules, tokensIn, List.map_eq_nil_iff, List.map_eq_nil_iff]
    simp only [List.eq_nil_iff_forall_not_mem, List.mem_eraseDups]
  rw [noTokens, Pattern.matchesIn_eq_nil_iff, Pattern.find?_eq_none_iff]
  simp only [read_tokenPattern_eq_none_iff]
  constructor
  · rintro none c isToken ⟨front, back, rfl⟩
    refine none (marker.lead ++ c :: back) ⟨front, ?_⟩ c back isToken rfl
    simp only [List.append_assoc, List.singleton_append]
  · rintro none _ ⟨front, rfl⟩ c rest isToken rfl
    refine none c isToken ⟨front, rest, ?_⟩
    simp only [List.append_assoc, List.singleton_append]

end Marker

section Rules

variable {options : Options} {text : Text}

theorem tokenRules_eq_nil_iff :
    tokenRules options text = [] ↔ ∀ marker ∈ options.markers, marker.rules text = [] := by
  unfold tokenRules Options.markers directedRules globalRules Direction.all
  cases options.rtl <;> cases options.globalPrefix <;>
    simp [and_assoc, and_comm, and_left_comm]

/-- **No rules.** None are made exactly if no component is given classes and no enabled mark stands in
front of a character of a class. -/
theorem documentRules_eq_nil_iff {usages : List Usage} :
    documentRules options usages text = [] ↔
      usages = [] ∧ ∀ marker ∈ options.markers, ∀ c, isTokenChar c = true →
        ¬ marker.lead ++ [c] <:+: Directive.strip text := by
  have noGroups : ((usages.map Usage.group).eraseDups.flatMap (groupRules · options.rtl) = []) ↔
      usages = [] := by
    rw [List.flatMap_eq_nil_iff]
    constructor
    · intro none
      cases usages with
      | nil => rfl
      | cons usage rest =>
        have isGroup : usage.group ∈ ((usage :: rest).map Usage.group).eraseDups :=
          List.mem_eraseDups.mpr (List.mem_map_of_mem List.mem_cons_self)
        cases none _ isGroup
    · rintro rfl group member
      cases member
  have scanned : (if options.scansTokens then tokenRules options (Directive.strip text) else []) =
      tokenRules options (Directive.strip text) := by
    unfold Options.scansTokens tokenRules
    cases options.rtl <;> cases options.globalPrefix <;> rfl
  unfold documentRules
  simp only [scanned]
  rw [List.append_eq_nil_iff, noGroups, tokenRules_eq_nil_iff]
  simp only [Marker.rules_eq_nil_iff]

end Rules

/-- The parts of a text that stand between its directives, before the first and behind the last. -/
def Directive.between (text : Text) : List Text :=
  (pattern.hits text).1.map Hit.before ++ [(pattern.hits text).2]

/-- What stands between directives is left without them. -/
theorem Directive.infix_strip {text part : Text} (member : part ∈ between text) :
    part <:+: strip text := by
  unfold strip Pattern.replaceAll
  simp only [List.append_nil]
  rcases List.mem_append.mp member with isBefore | isTail
  · obtain ⟨hit, isHit, rfl⟩ := List.mem_map.mp isBefore
    obtain ⟨front, back, split⟩ := List.append_of_mem isHit
    rw [split]
    refine ⟨front.flatMap Hit.before, back.flatMap Hit.before ++ (pattern.hits text).2, ?_⟩
    simp only [List.flatMap_append, List.flatMap_cons, List.append_assoc]
  · rw [List.mem_singleton.mp isTail]
    exact (List.suffix_append _ _).isInfix

variable {options : Options} {content code : Text} {file : Option String}
  {map : Option SourceMap.Encoding} {stripped : Stripped} {document : Document} {patch : Patch}

/-- If no component is given classes, nothing is replaced. -/
theorem Scans.eq_ofSource (scans : Scans content stripped document patch)
    (noUsages : document.usages = []) : patch = Patch.ofSource content := by
  have replaced := scans.replaced
  rw [noUsages] at replaced
  exact (Except.ok.inj replaced).symm

/-- **Without rules.** A content for which no rule is made is renamed only. It is left alone exactly if
no enabled mark stands in it; those that can stand in it have no class behind them, or a directive
reaches into it. -/
theorem hoist_of_no_rules (done : hoist options content file = .ok ⟨code, map⟩)
    (none : ∀ stripped document patch, Scans content stripped document patch →
      documentRules options document.usages patch.output = []) :
    (code = content ∧ map = .none) ∨
      (code = renameMarkers options content ∧
        (code = content ↔ ∀ marker ∈ options.markers, ¬ marker.lead <:+: content) ∧
        ∀ part ∈ Directive.between content, ∀ marker ∈ options.markers, ∀ c,
          isTokenChar c = true → ¬ marker.lead ++ [c] <:+: part) := by
  rcases cases_of_hoist done with alone | ⟨stripped, document, patch, placed, scans, renders, codeIs, -⟩
  · exact .inl alone
  · have noRules := none stripped document patch scans
    obtain ⟨noUsages, noTokens⟩ := documentRules_eq_nil_iff.mp noRules
    obtain rfl := scans.eq_ofSource noUsages
    obtain ⟨-, rfl⟩ := renders.resolve_right fun some => some.1 noRules
    rw [Patch.output_ofSource] at codeIs noTokens
    refine .inr ⟨codeIs, ?_, fun part isPart marker enabled c isToken inPart => ?_⟩
    · rw [codeIs]
      exact renameMarkers_eq_self_iff
    · exact noTokens marker enabled c isToken (inPart.trans (Directive.infix_strip isPart))

/-- A content is processed without rules if no component in it is given classes and it has no marked
class. -/
theorem hoist_of_no_usages {start : Nat}
    (begins : (ReadableRange.ofContent content).start? = some start)
    (noUsages : (read? (Stripped.ofDocument content start).text).toOption.map Document.usages = some [])
    (none : documentRules options [] content = []) (file : Option String) :
    (∃ map, hoist options content file = .ok ⟨renameMarkers options content, some map⟩) ∧
      ∀ stripped document patch, Scans content stripped document patch →
        documentRules options document.usages patch.output = [] := by
  have without {document : Document} (usages : document.usages = []) :
      documentRules options document.usages (Patch.ofSource content).output = [] := by
    rw [usages, Patch.output_ofSource, none]
  constructor
  · cases read : read? (Stripped.ofDocument content start).text with
    | error faults =>
      rw [read] at noUsages
      cases noUsages
    | ok document =>
      rw [read] at noUsages
      have usages : document.usages = [] := Option.some.inj noUsages
      have scans : Scans content (Stripped.ofDocument content start) document
          (Patch.ofSource content) := by
        refine ⟨⟨start, begins, rfl⟩, read, ?_⟩
        rw [usages]
        rfl
      have done := hoist_of_scans scans (.inl ⟨without usages, rfl⟩) file
      rwa [Patch.output_ofSource] at done
  · intro stripped document patch scans
    obtain ⟨start', begins', rfl⟩ := scans.begins
    obtain rfl : start = start' := Option.some.inj (begins.symm.trans begins')
    rw [scans.read] at noUsages
    have usages : document.usages = [] := Option.some.inj noUsages
    rw [scans.eq_ofSource usages, without usages]

/-- A directive with a marked class. -/
def markedDirective : Text := ['@', 'a', 'p', 'p', 'l', 'y', ' ', 'r', 't', 'l', ':', 'p']

/-- A mark in a directive. -/
theorem hoist_of_no_rules_directive :
    ∃ code map, hoist ⟨true, false⟩ markedDirective none = .ok ⟨code, map⟩ ∧
      (∀ stripped document patch, Scans markedDirective stripped document patch →
        documentRules ⟨true, false⟩ document.usages patch.output = []) ∧
      ((code = markedDirective ∧ map = none) ∨
        (code = renameMarkers ⟨true, false⟩ markedDirective ∧
          (code = markedDirective ↔
            ∀ marker ∈ Options.markers ⟨true, false⟩, ¬ marker.lead <:+: markedDirective) ∧
          ∀ part ∈ Directive.between markedDirective, ∀ marker ∈ Options.markers ⟨true, false⟩,
            ∀ c, isTokenChar c = true → ¬ marker.lead ++ [c] <:+: part)) := by
  have begins : (ReadableRange.ofContent markedDirective).start? = some 0 := by rfl
  have noUsages : (read? (Stripped.ofDocument markedDirective 0).text).toOption.map
      Document.usages = some [] := by cbv
  have noRules : documentRules ⟨true, false⟩ [] markedDirective = [] := by cbv
  obtain ⟨⟨map, done⟩, none⟩ := hoist_of_no_usages begins noUsages noRules .none
  exact ⟨_, some map, done, none, hoist_of_no_rules done none⟩

/-- A text with a mark that has no class behind it. -/
def bareMark : Text := ['r', 't', 'l', ':', ' ', 'x']

/-- A mark without a class is renamed though no rule is made. -/
theorem hoist_renames_bareMark :
    ∃ code map, hoist ⟨true, false⟩ bareMark none = .ok ⟨code, map⟩ ∧
      (∀ stripped document patch, Scans bareMark stripped document patch →
        documentRules ⟨true, false⟩ document.usages patch.output = []) ∧ code ≠ bareMark := by
  have begins : (ReadableRange.ofContent bareMark).start? = some 0 := by rfl
  have noUsages : (read? (Stripped.ofDocument bareMark 0).text).toOption.map
      Document.usages = some [] := by cbv
  have noRules : documentRules ⟨true, false⟩ [] bareMark = [] := by cbv
  obtain ⟨⟨map, done⟩, none⟩ := hoist_of_no_usages begins noUsages noRules .none
  refine ⟨_, some map, done, none, ?_⟩
  rw [renameMarkers_eq]
  decide

end ClassHoist
