import ClassHoist.ClassName

/-! # Characters of the names of groups

The name of a group has no colon and no white space, so it stays on one line and renaming marks
leaves it alone.
-/

namespace ClassHoist

/-- Neither white space nor a colon gets into a joined class. -/
theorem not_mem_joinClasses {c : Char} {afterBlank : Bool} {text : Text}
    (excluded : c = ':' ∨ Text.isBlank c = true) : c ∉ joinClasses afterBlank text := by
  have differs {d : Char} (kept : d ≠ ':' ∧ Text.isBlank d = false) : c ≠ d := by
    rintro rfl
    rcases excluded with isColon | isBlank
    · exact kept.1 isColon
    · rw [kept.2] at isBlank
      cases isBlank
  induction text generalizing afterBlank with
  | nil => exact List.not_mem_nil
  | cons d rest ih =>
    unfold joinClasses
    split
    case isTrue blank =>
      split
      · exact ih
      · intro member
        rcases List.mem_cons.mp member with same | later
        · exact differs (by decide) same
        · exact ih later
    case isFalse notBlank =>
      intro member
      rcases List.mem_cons.mp member with same | later
      · by_cases colon : d = ':'
        · rw [if_pos colon] at same
          exact differs (by decide) same
        · rw [if_neg colon] at same
          exact differs ⟨colon, Bool.not_eq_true _ ▸ notBlank⟩ same
      · exact ih later

theorem mem_of_mem_joinClasses {c : Char} {afterBlank : Bool} {group : Text}
    (member : c ∈ joinClasses afterBlank group) : c ∈ group ∨ c = '_' ∨ c = '-' := by
  induction group generalizing afterBlank with
  | nil => exact .inl member
  | cons d rest ih =>
    have later {afterBlank : Bool} (member : c ∈ joinClasses afterBlank rest) :
        c ∈ d :: rest ∨ c = '_' ∨ c = '-' := (ih member).imp_left (List.mem_cons_of_mem _)
    unfold joinClasses at member
    split at member
    case isTrue =>
      split at member
      · exact later member
      · rcases List.mem_cons.mp member with same | member
        · exact .inr (.inl same)
        · exact later member
    case isFalse =>
      rcases List.mem_cons.mp member with same | member
      · split at same
        · exact .inr (.inr same)
        · exact .inl (same ▸ List.mem_cons_self)
      · exact later member

theorem joinClasses_ne_nil {group : Text} (nonempty : group ≠ []) : joinClasses false group ≠ [] := by
  obtain ⟨c, rest, rfl⟩ := List.exists_cons_of_ne_nil nonempty
  unfold joinClasses
  split <;> exact List.cons_ne_nil _ _

/-- Joined classes end with a sign that joining leaves alone if the classes do. -/
theorem getLast?_joinClasses {c : Char}
    (plain : c ≠ '_' ∧ c ≠ '-' ∧ c ≠ ':' ∧ Text.isBlank c = false) (afterBlank : Bool) (group : Text) :
    (joinClasses afterBlank group).getLast? = some c ↔ group.getLast? = some c := by
  have skip {d : Char} (other : d ≠ c) (text : Text) :
      (d :: text).getLast? = some c ↔ text.getLast? = some c := by
    cases text with
    | nil => simpa using other
    | cons e text => rw [List.getLast?_cons_cons]
  induction group generalizing afterBlank with
  | nil => exact Iff.rfl
  | cons d rest ih =>
    unfold joinClasses
    split
    case isTrue blank =>
      have other : d ≠ c := by
        rintro rfl
        rw [plain.2.2.2] at blank
        cases blank
      rw [skip other]
      split
      · exact ih true
      · rw [skip plain.1.symm]
        exact ih true
    case isFalse =>
      by_cases colon : d = ':'
      · rw [if_pos colon, skip plain.2.1.symm, skip (colon ▸ plain.2.2.1.symm)]
        exact ih false
      · rw [if_neg colon]
        by_cases same : d = c
        · cases rest with
          | nil => exact Iff.rfl
          | cons e rest =>
            have later := ih false
            obtain ⟨f, more, split⟩ :=
              List.exists_cons_of_ne_nil (joinClasses_ne_nil (List.cons_ne_nil e rest))
            rw [split] at later ⊢
            rw [List.getLast?_cons_cons, List.getLast?_cons_cons]
            exact later
        · rw [skip same, skip same]
          exact ih false

/-- Joining classes changes nothing but what turns into underscores and dashes. -/
theorem joinClasses_eq_self {group : Text}
    (plain : ∀ c ∈ joinClasses false group, c ≠ '_' ∧ c ≠ '-') : joinClasses false group = group := by
  induction group with
  | nil => rfl
  | cons c rest ih =>
    unfold joinClasses at plain ⊢
    split at plain
    case isTrue blank => exact absurd rfl (plain '_' List.mem_cons_self).1
    case isFalse notBlank =>
      rw [if_neg notBlank]
      split at plain
      case isTrue colon => exact absurd rfl (plain '-' List.mem_cons_self).2
      case isFalse notColon =>
        rw [if_neg notColon, ih fun d member => plain d (List.mem_cons_of_mem _ member)]

theorem suffix_of_suffix_joinClasses {part group : Text} {afterBlank : Bool}
    (plain : ∀ c ∈ part, c ≠ '_' ∧ c ≠ '-') (isSuffix : part <:+ joinClasses afterBlank group) :
    part <:+ group := by
  induction group generalizing afterBlank with
  | nil => exact isSuffix
  | cons c rest ih =>
    unfold joinClasses at isSuffix
    split at isSuffix
    case isTrue =>
      split at isSuffix
      · exact (ih isSuffix).trans (List.suffix_cons _ _)
      · rcases List.suffix_cons_iff.mp isSuffix with same | later
        · exact absurd rfl (plain '_' (same ▸ List.mem_cons_self)).1
        · exact (ih later).trans (List.suffix_cons _ _)
    case isFalse =>
      rcases List.suffix_cons_iff.mp isSuffix with same | later
      · by_cases colon : c = ':'
        · rw [if_pos colon] at same
          exact absurd rfl (plain '-' (same ▸ List.mem_cons_self)).2
        · rw [if_neg colon] at same
          have rest' := joinClasses_eq_self fun d member =>
            plain d (same ▸ List.mem_cons_of_mem _ member)
          have whole : part = c :: rest := same.trans (congrArg (c :: ·) rest')
          exact whole ▸ List.suffix_rfl
      · exact (ih later).trans (List.suffix_cons _ _)

theorem not_mem_groupName {c : Char} {group : Text}
    (excluded : c = ':' ∨ Text.isBlank c = true) : c ∉ groupName group := by
  intro member
  rcases List.mem_append.mp member with lead | joined
  · rcases excluded with rfl | blank
    · exact absurd lead (by decide)
    · have none : (['d', 'e', 'e', 'p', '_'] : Text).all (! Text.isBlank ·) = true := by decide
      have notBlank := List.all_eq_true.mp none c lead
      rw [blank] at notBlank
      cases notBlank
  · exact not_mem_joinClasses excluded joined

end ClassHoist
