import ClassHoist.Proofs.Stretches

/-! # A document after the edits

No directive goes on from one stretch of an edited document into the next: a value that is put in place
of another neither ends nor starts like a directive, and rules are left whole. So cutting out directives
leaves the exchanged parts of the stretches (`Segmented.settles_edited`).
-/

namespace ClassHoist

open Markup Directive

namespace Directive

variable {behind text left : Text} {c : Char}

theorem Settles.subset (settles : Settles behind text left) : left ⊆ text := by
  induction settles with
  | nil => exact List.Subset.refl _
  | keep unmatched more ih => exact List.cons_subset_cons _ ih
  | cut isDirective closes more ih => exact fun c member => List.mem_append_right _ (ih member)

/-- Nothing is cut out in front of what is left, unless that starts with a closing brace. -/
theorem Settles.head?_eq (settles : Settles behind text left) (isFirst : left.head? = some c)
    (other : c ≠ '\x7d') : text.head? = some c := by
  cases settles with
  | nil => cases isFirst
  | keep => exact isFirst
  | @cut found text _ isDirective closes settles =>
    cases text with
    | nil =>
      rw [List.length_eq_zero_iff.mp (Nat.le_zero.mp settles.length_le)] at isFirst
      cases isFirst
    | cons d text =>
      obtain ⟨more, rfl⟩ := settles.exists_brace (congrArg some (closes d rfl))
      exact absurd (Option.some.inj isFirst).symm other

/-- What stands behind classes is no part of a directive. -/
theorem not_mem_lead_of_stops
    (stops : Text.isSeparator c = true ∨ c ∈ ['"', '\'', '\x7b', '>', '/']) :
    c ≠ '\x7d' ∧ c ∉ lead.dropLast := by
  rcases stops with blank | member
  · refine ⟨fun brace => ?_, fun inLead => ?_⟩
    · rw [brace] at blank
      cases blank
    · have plain : lead.dropLast.all (fun c => !Text.isSeparator c) = true := rfl
      have none := List.all_eq_true.mp plain c inLead
      rw [blank] at none
      cases none
  · simp only [List.mem_cons, List.not_mem_nil, or_false] at member
    rcases member with rfl | rfl | rfl | rfl | rfl <;> decide

/-- No part of the start of a directive ends with what stands in front of classes. -/
theorem not_mem_lead_of_slot {before after : Text} (slot : Slot before after) :
    before ≠ [] ∧ ∀ c ∈ before.getLast?, c ∉ lead.dropLast := by
  obtain ⟨front, c, blanks, rfl, fence, blank⟩ := slot.fence
  have plain : lead.dropLast.all (fun c => !isFence c && !Text.isSeparator c) = true := rfl
  refine ⟨List.append_ne_nil_of_right_ne_nil _ (List.cons_ne_nil _ _), fun d isLast inLead => ?_⟩
  have none := List.all_eq_true.mp plain d inLead
  rw [List.getLast?_append_of_ne_nil _ (List.cons_ne_nil _ _)] at isLast
  rcases List.mem_cons.mp (List.mem_of_getLast? isLast) with rfl | inBlanks
  · rw [fence] at none
    cases none
  · rw [blank d inBlanks, Bool.not_true, Bool.and_false] at none
    cases none

end Directive

variable {exchange : Exchange} {stretches : List Stretch} {behind added : Text} {site : Option Nat}
  {offset : Nat}

theorem stretchText_cons (stretch : Stretch) (stretches : List Stretch) :
    stretchText (stretch :: stretches) = stretch.text ++ stretchText stretches := rfl

/-- What is left of the stretches are the parts. -/
theorem Segmented.settles (segmented : Segmented behind exchange stretches) :
    Settles behind (stretchText stretches) (oldText (stretches.map Stretch.part)) := by
  induction stretches with
  | nil => exact .nil
  | cons stretch stretches ih =>
    cases stretch with
    | kept text left => exact .append segmented.1.settles (ih segmented.2)
    | classes usage cut value =>
      obtain ⟨cutSettles, valueSettles, -, later⟩ := segmented
      have here : Settles (stretchText stretches ++ behind) (cut ++ value) ([] ++ usage.group) :=
        .append cutSettles valueSettles
      exact .append here (ih later)
    | rules => exact ih segmented

/-- Stretches that do not start with classes or rules start alike after the edits. -/
theorem Segmented.head?_edited (segmented : Segmented behind exchange stretches)
    (laid : Laid site offset [] (stretches.map Stretch.part)) (added : Text) :
    (stretchEdited added stretches ++ behind).head? = (stretchText stretches ++ behind).head? := by
  induction stretches generalizing offset with
  | nil => rfl
  | cons stretch stretches ih =>
    cases stretch with
    | kept text left =>
      obtain ⟨settled, later⟩ := segmented
      rcases settled with ⟨rfl, rfl⟩ | ⟨text, left, c, rfl, rfl, -⟩
      · exact ih later laid
      · cases text <;> rfl
    | classes usage cut value => exact absurd rfl (not_mem_lead_of_slot laid.2.1).1
    | rules => exact absurd (List.suffix_nil.mp laid.2.1) (List.cons_ne_nil _ _)

/-- What is left of the classes after the edits. -/
theorem settles_shownName {usage : Usage} {cut value behind' : Text}
    (cutSettles : Settles (value ++ behind) cut []) (settles : Settles behind value usage.group)
    (nonempty : usage.group ≠ []) (busy : Busy behind)
    (first : ∀ c ∈ behind.head?, c ≠ '\x7d' ∧ c ∉ lead.dropLast)
    (same : behind'.head? = behind.head?) :
    Settles behind' (cut ++ groupName usage.group) (shownName usage cut) := by
  unfold shownName
  by_cases none : cut = []
  · rw [if_pos none, none]
    exact settles.name busy first same List.suffix_rfl
  · obtain ⟨isDirective, closes⟩ := cutSettles.isDirective_of_nil none
    obtain ⟨more, isGroup⟩ : ∃ more, usage.group = '\x7d' :: more := by
      cases value with
      | nil => exact absurd (List.length_eq_zero_iff.mp (Nat.le_zero.mp settles.length_le)) nonempty
      | cons c value => exact settles.exists_brace (congrArg some (closes c rfl))
    have isName : joinClasses false usage.group = '\x7d' :: joinClasses false more := by
      rw [isGroup]
      rfl
    rw [if_neg none, groupName, ← List.append_assoc]
    refine .cut (isDirective.append (by decide)) ?_
      (settles.name busy first same (List.suffix_append _ _))
    rw [isName]
    rintro c isFirst
    exact (Option.some.inj isFirst).symm

/-- **The stretches after the edits.** Cutting out directives leaves the parts, exchanged. -/
theorem Segmented.settles_edited (rules : ∀ behind, Settles behind added exchange.rules)
    (segmented : Segmented behind exchange stretches) (ends : Settles [] behind [])
    (groups : ∀ usage ∈ (stretches.map Stretch.part).filterMap Markup.Part.usage?, usage.group ≠ [])
    {front before : Text} (laid : Laid site offset before (stretches.map Stretch.part))
    (settled : Settled (stretchText stretches ++ behind) front before) :
    Settles behind (front ++ stretchEdited added stretches)
      (before ++ newText exchange (stretches.map Stretch.part)) := by
  induction stretches generalizing front before offset with
  | nil => exact .append settled.settles .nil
  | cons stretch stretches ih =>
    have whole (stretches : List Stretch) (segmented : Segmented behind exchange stretches) :
        Settles [] (stretchText stretches ++ behind) (oldText (stretches.map Stretch.part)) := by
      have all : Settles [] (stretchText stretches ++ behind)
          (oldText (stretches.map Stretch.part) ++ []) :=
        .append (by rw [List.append_nil]; exact segmented.settles) ends
      rwa [List.append_nil] at all
    cases stretch with
    | kept text left =>
      have settled' := Settled.append (by rwa [← List.append_assoc]) segmented.1
      have later := ih segmented.2 groups laid settled'
      rw [List.append_assoc, List.append_assoc] at later
      exact later
    | classes usage cut value =>
      obtain ⟨-, slot, busy, laid⟩ := laid
      obtain ⟨nonempty, groups⟩ := List.forall_mem_cons.mp groups
      obtain ⟨cutSettles, valueSettles, named, later⟩ := segmented
      have rest := whole stretches later
      have busyRest : Busy (stretchText stretches ++ behind) := busy.mono rest.subset
      have first : ∀ c ∈ (stretchText stretches ++ behind).head?, c ≠ '\x7d' ∧ c ∉ lead.dropLast := by
        obtain ⟨c, isFirst, stops⟩ := slot.stops
        have other : c ≠ '\x7d' ∧ c ∉ lead.dropLast := not_mem_lead_of_stops stops
        intro d isFirst'
        rw [rest.head?_eq isFirst other.1] at isFirst'
        exact Option.some.inj isFirst' ▸ other
      -- A directive directly in front now goes on up to the first closing brace of the name.
      have name := settles_shownName cutSettles valueSettles nonempty busyRest first
        (later.head?_edited laid added)
      rw [← named] at name
      have goesOn := ih later groups laid (.inl ⟨rfl, rfl⟩)
      have busyHere : Busy (stretchText (.classes usage cut value :: stretches) ++ behind) := by
        rw [stretchText_cons, List.append_assoc]
        exact busyRest.mono (List.subset_append_right _ _)
      exact .append (settled.congr (not_mem_lead_of_slot slot).1 (not_mem_lead_of_slot slot).2 busyHere)
        (.append name goesOn)
    | rules =>
      obtain ⟨-, closes, busy, laid⟩ := laid
      have rest := whole stretches segmented
      obtain ⟨front', rfl⟩ := closes
      have goesOn := ih segmented groups laid (.inl ⟨rfl, rfl⟩)
      -- Rules stand behind a closing bracket, which is in no directive's lead.
      have last : ∀ c ∈ (front' ++ ['>']).getLast?, c ∉ lead.dropLast := by
        rw [List.getLast?_concat]
        rintro c isLast
        rw [← Option.some.inj isLast]
        decide
      exact .append (settled.congr (by simp) last (busy.mono rest.subset)) (.append (rules _) goesOn)

end ClassHoist
