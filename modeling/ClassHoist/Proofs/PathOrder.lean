import ClassHoist.Proofs.Paths
import Mathlib.Data.List.Lex

/-! # The order of paths

Paths are compared by a key for each of their parts, so their order is total, and two paths that come
before each other have the same parts. A list of paths is arranged in strictly ascending order, and no
path gets lost but for its spelling.
-/

namespace ClassHoist

namespace Part

/-- Parts with the same key are the same. -/
theorem key_injective : Function.Injective key := by
  intro first second same
  cases first <;> cases second
  case entry.entry name other =>
    have names := List.map_injective_iff.mpr (fun _ _ => Char.toNat_inj.mp) (List.cons.inj same).2
    rw [names]
  all_goals first | rfl | cases same

/-- Keys are compared in the order of lists of numbers. -/
theorem keyLe_iff (first second : List Nat) : keyLe first second = true ↔ first ≤ second := by
  rw [← not_lt]
  induction first generalizing second with
  | nil => simp [keyLe]
  | cons a first ih =>
    cases second with
    | nil => simp [keyLe]
    | cons b second =>
      rw [List.cons_lt_cons_iff, keyLe]
      by_cases same : a = b
      · simp [same, ih]
      · simp [same, Ne.symm same, Nat.le_iff_lt_or_eq]

/-- Lists of parts are compared by the keys of the parts. -/
theorem listLe_iff (first second : List Part) :
    listLe first second = true ↔ first.map key ≤ second.map key := by
  rw [← not_lt]
  induction first generalizing second with
  | nil => simp [listLe]
  | cons a first ih =>
    cases second with
    | nil => simp [listLe]
    | cons b second =>
      rw [List.map_cons, List.map_cons, List.cons_lt_cons_iff, listLe]
      by_cases same : a = b
      · simp [same, ih]
      · have differ : b.key ≠ a.key := key_injective.ne (Ne.symm same)
        rw [if_neg same, keyLe_iff, ← not_lt]
        simp [differ]

end Part

namespace Path

variable {first second last path : Path} {paths : List Path}

/-- What decides about the order of a path. -/
def key (path : Path) : List (List Nat) := path.parts.map Part.key

/-- A path comes strictly before another one. -/
def IsBefore (first second : Path) : Prop := second.le first = false

/-- Paths are compared by their keys. -/
theorem le_iff : first.le second = true ↔ first.key ≤ second.key := Part.listLe_iff _ _

/-- A path comes before another exactly if its key is smaller. -/
theorem isBefore_iff : first.IsBefore second ↔ first.key < second.key := by
  rw [IsBefore, ← Bool.not_eq_true, le_iff, not_le]

/-- Paths have the same key exactly if they have the same parts. -/
theorem key_eq_iff : first.key = second.key ↔ first.parts = second.parts :=
  (List.map_injective_iff.mpr Part.key_injective).eq_iff

/-- Of two paths in order with different parts the first one comes strictly before the other. -/
theorem isBefore_of_le (ordered : first.le second = true) (differ : second.parts ≠ first.parts) :
    first.IsBefore second :=
  isBefore_iff.mpr (lt_of_le_of_ne (le_iff.mp ordered) fun same => differ (key_eq_iff.mp same).symm)

/-- Distinct paths of a sorted list are in strictly ascending order. -/
theorem pairwise_distinctAfter (sorted : (last :: paths).Pairwise (le · ·)) :
    (last :: distinctAfter last paths).Pairwise IsBefore := by
  induction paths generalizing last with
  | nil => exact List.pairwise_singleton _ _
  | cons path rest ih =>
    obtain ⟨fromLast, sortedRest⟩ := List.pairwise_cons.mp sorted
    rw [distinctAfter]
    split
    case isTrue =>
      obtain ⟨-, rest⟩ := List.pairwise_cons.mp sortedRest
      exact ih (List.pairwise_cons.mpr
        ⟨fun other mem => fromLast other (List.mem_cons_of_mem _ mem), rest⟩)
    case isFalse differ =>
      have later := ih sortedRest
      have here := isBefore_of_le (fromLast path List.mem_cons_self) differ
      refine List.pairwise_cons.mpr ⟨?_, later⟩
      intro other mem
      rcases List.mem_cons.mp mem with rfl | mem
      · exact here
      · have next := (List.pairwise_cons.mp later).1 other mem
        exact isBefore_iff.mpr ((isBefore_iff.mp here).trans (isBefore_iff.mp next))

/-- **Arranged paths are in strictly ascending order.** -/
theorem pairwise_arrange (paths : List Path) : (arrange paths).Pairwise IsBefore := by
  have sorted : (paths.mergeSort le).Pairwise (le · ·) := by
    apply List.pairwise_mergeSort
    · intro a b c first second
      exact le_iff.mpr ((le_iff.mp first).trans (le_iff.mp second))
    · intro a b
      rw [Bool.or_eq_true, le_iff, le_iff]
      exact le_total _ _
  unfold arrange
  split
  case h_1 => exact List.Pairwise.nil
  case h_2 first rest same => exact pairwise_distinctAfter (same ▸ sorted)

/-- Of paths in strictly ascending order, none is left out. -/
theorem distinctAfter_of_pairwise (sorted : (last :: paths).Pairwise IsBefore) :
    distinctAfter last paths = paths := by
  induction paths generalizing last with
  | nil => rfl
  | cons path rest ih =>
    obtain ⟨fromLast, later⟩ := List.pairwise_cons.mp sorted
    have differ : path.parts ≠ last.parts := by
      intro same
      have before := isBefore_iff.mp (fromLast path List.mem_cons_self)
      rw [key_eq_iff.mpr same] at before
      exact lt_irrefl _ before
    rw [distinctAfter, if_neg differ, ih later]

/-- Paths in strictly ascending order are left as they are. -/
theorem arrange_of_pairwise (sorted : paths.Pairwise IsBefore) : arrange paths = paths := by
  have ordered : paths.Pairwise (le · ·) :=
    sorted.imp fun before => le_iff.mpr (isBefore_iff.mp before).le
  unfold arrange
  rw [List.mergeSort_of_pairwise ordered]
  cases paths with
  | nil => rfl
  | cons first rest => exact congrArg (first :: ·) (distinctAfter_of_pairwise sorted)

/-- A path that is left out has the parts of one that stays. -/
theorem exists_mem_distinctAfter (last : Path) (mem : path ∈ paths) :
    ∃ other ∈ last :: distinctAfter last paths, other.parts = path.parts := by
  induction paths generalizing last with
  | nil => cases mem
  | cons first rest ih =>
    rw [distinctAfter]
    split
    case isTrue same =>
      rcases List.mem_cons.mp mem with rfl | mem
      · exact ⟨last, List.mem_cons_self, same.symm⟩
      · exact ih last mem
    case isFalse =>
      rcases List.mem_cons.mp mem with rfl | mem
      · exact ⟨path, by simp, rfl⟩
      · obtain ⟨other, listed, same⟩ := ih first mem
        exact ⟨other, List.mem_cons_of_mem _ listed, same⟩

/-- Every path is among the arranged ones, perhaps with another spelling. -/
theorem exists_mem_arrange (mem : path ∈ paths) :
    ∃ other ∈ arrange paths, other.parts = path.parts := by
  have mem : path ∈ paths.mergeSort le := List.mem_mergeSort.mpr mem
  unfold arrange
  split
  case h_1 none =>
    rw [none] at mem
    cases mem
  case h_2 first rest same =>
    rw [same] at mem
    rcases List.mem_cons.mp mem with rfl | mem
    · exact ⟨path, List.mem_cons_self, rfl⟩
    · exact exists_mem_distinctAfter first mem

end Path

end ClassHoist
