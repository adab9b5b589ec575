import ClassHoist.Proofs.Origins
import ClassHoist.Proofs.Remains

/-! # Offsets of what remains, in the document

The maps of offsets lead from what remains of a document without its directives to the document. An
offset where something starts leads to the same byte (`getElem?_utf8_restore`), no offset leads into
what was cut out (`restore_apart`), and the two maps differ exactly where something was cut out
(`restore_lt_eq_iff`). So a part of what remains stands in the document between the places of its
ends, with only whole directives in it (`ofDocument_maps`).
-/

namespace ClassHoist

namespace Stripped

variable {counts : Nat → Nat → Bool} {cuts : List Hit} {tail : Text} {stripped : Stripped}
  {offset place : Nat}

/-- Where something starts, the whole has the byte that is left there. -/
theorem getElem?_utf8_restore (cuts : List Hit) (tail : Text) (offset : Nat) :
    (joined cuts tail).utf8[restore (fun cut place => cut ≤ place) cuts offset]? =
      (kept cuts tail).utf8[offset]? := by
  induction cuts generalizing offset with
  | nil => rfl
  | cons cut cuts ih =>
    rw [joined_cons, kept_cons, restore]
    simp only [decide_eq_true_eq]
    split
    case isTrue upTo =>
      obtain ⟨offset, rfl⟩ := Nat.exists_eq_add_of_le upTo
      rw [Nat.add_sub_cancel_left, Nat.add_assoc, Text.getElem?_utf8_append,
        Text.getElem?_utf8_append, Text.getElem?_utf8_append, ih]
    case isFalse before =>
      have inside : offset < cut.before.utf8.length := by
        rw [Text.length_utf8]
        exact Nat.lt_of_not_le before
      rw [Text.utf8_append, List.getElem?_append_left inside, Text.utf8_append,
        List.getElem?_append_left inside]

/-- No offset is mapped into what was cut out. -/
theorem restore_apart (cutoff : Cutoff counts) {span : Span}
    (member : span ∈ removedFrom place cuts) (offset : Nat) :
    span.stop ≤ place + restore counts cuts offset ∨
      place + restore counts cuts offset ≤ span.start := by
  induction cuts generalizing place offset with
  | nil => cases member
  | cons cut cuts ih =>
    rw [restore]
    by_cases counted : counts cut.before.bytes offset = true
    · rw [if_pos counted, ← Nat.add_assoc, ← Nat.add_assoc]
      rcases List.mem_cons.mp member with rfl | later
      · exact .inl (Nat.le_add_right _ _)
      · exact ih later _
    · rw [if_neg counted]
      have short : offset ≤ cut.before.bytes :=
        Nat.le_of_not_lt fun behind => counted (cutoff.before behind)
      refine .inr ?_
      rcases List.mem_cons.mp member with rfl | later
      · exact Nat.add_le_add_left short place
      · have behind := le_start_of_mem_removedFrom later
        omega

/-- The two ways of counting cuts differ exactly where something was cut out. -/
theorem restore_lt_eq_iff (nonempty : ∀ cut ∈ cuts, cut.found ≠ []) (offset : Nat) :
    restore (fun cut place => cut < place) cuts offset =
      restore (fun cut place => cut ≤ place) cuts offset ↔ offset ∉ places cuts := by
  induction cuts generalizing offset with
  | nil => exact iff_of_true rfl List.not_mem_nil
  | cons cut cuts ih =>
    have later := ih (fun next member => nonempty next (List.mem_cons_of_mem _ member))
      (offset - cut.before.bytes)
    have positive := Text.bytes_pos (nonempty cut List.mem_cons_self)
    simp only [restore, decide_eq_true_eq]
    rcases Nat.lt_trichotomy offset cut.before.bytes with less | rfl | more
    · rw [if_neg (Nat.lt_asymm less), if_neg (Nat.not_le_of_lt less)]
      exact iff_of_true rfl fun member => Nat.not_le_of_lt less (le_of_mem_places member)
    · rw [if_neg (Nat.lt_irrefl _), if_pos (Nat.le_refl _)]
      exact iff_of_false (by omega) fun other => other List.mem_cons_self
    · rw [if_pos more, if_pos (Nat.le_of_lt more), Nat.add_left_cancel_iff, later, places,
        List.mem_cons, List.mem_map]
      have whole := Nat.add_sub_of_le (Nat.le_of_lt more)
      refine not_congr ⟨fun member => .inr ⟨_, member, whole⟩, ?_⟩
      rintro (same | ⟨place, member, rfl⟩)
      · omega
      · rwa [Nat.add_sub_cancel_left]

/-- What was cut out lies outside a part of what remains, or whole inside it. -/
theorem apart_or_inside_of_mem_removed {span : Span} (member : span ∈ stripped.removed)
    (first last : Nat) :
    span.stop ≤ stripped.mapStart first ∨ stripped.mapEnd last ≤ span.start ∨
      (stripped.mapStart first ≤ span.start ∧ span.stop ≤ stripped.mapEnd last) := by
  rcases restore_apart cutoff_le member first with left | right
  · exact .inl left
  · exact .inr ((restore_apart cutoff_lt member last).symm.imp id fun upTo => ⟨right, upTo⟩)

/-- **The maps of offsets are faithful.** An offset where something starts leads to the same byte. A
part of what remains stands between the places of its start and its end, which are boundaries of the
document, with whole directives in it that are cut out. No end leads behind the start of what follows
it, the two maps differ exactly where something was cut out, and the end of what remains leads to the
end of the document. -/
theorem ofDocument_maps {content : Text} {start : Nat}
    (boundary : Text.isBoundary content start = true) :
    let stripped := ofDocument content start
    (∀ offset < Text.bytes stripped.text,
      content.utf8[stripped.mapStart offset]? = stripped.text.utf8[offset]?) ∧
    (∀ first last, Text.isBoundary stripped.text first = true →
      Text.isBoundary stripped.text last = true → first < last →
        start ≤ stripped.mapStart first ∧ stripped.mapStart first < stripped.mapEnd last ∧
        stripped.mapEnd last ≤ Text.bytes content ∧
        Text.isBoundary content (stripped.mapStart first) = true ∧
        Text.isBoundary content (stripped.mapEnd last) = true ∧
        (∀ span ∈ stripped.removed, span.stop ≤ stripped.mapStart first ∨
          stripped.mapEnd last ≤ span.start ∨
            (stripped.mapStart first ≤ span.start ∧ span.stop ≤ stripped.mapEnd last)) ∧
        ∃ value part,
          Text.slice? content (stripped.mapStart first) (stripped.mapEnd last) = some value ∧
          Text.slice? stripped.text first last = some part ∧
          Text.outside stripped.removed (stripped.mapStart first) value = part) ∧
    (∀ first second, first ≤ second → stripped.mapEnd first ≤ stripped.mapStart second) ∧
    (∀ offset, stripped.mapEnd offset = stripped.mapStart offset ↔ offset ∉ places stripped.cuts) ∧
    stripped.mapStart (Text.bytes stripped.text) = Text.bytes content := by
  intro stripped
  have isFrom : stripped.IsFrom content := isFrom_ofDocument boundary
  obtain ⟨front, whole, base⟩ := id isFrom
  refine ⟨fun offset _ => ?_, fun first last isFirst isLast less => ?_,
    fun first second ordered => mapEnd_le_mapStart ordered, fun offset => ?_, ?_⟩
  · rw [whole, mapStart, ← base, Text.getElem?_utf8_append, getElem?_utf8_restore]
    rfl
  -- Between two boundaries of what is left stands a part, which is mapped as a whole.
  · obtain ⟨before, part, after, split, rfl, rfl⟩ :=
      Text.exists_parts_of_isBoundary isFirst isLast (Nat.le_of_lt less)
    have stands : Text.Stands stripped.text (Text.bytes before)
        (Text.bytes before + Text.bytes part) part := ⟨before, after, split, rfl, rfl⟩
    have nonempty : part ≠ [] := by
      rintro rfl
      exact Nat.lt_irrefl _ less
    obtain ⟨value, someValue, stands', outside⟩ := isFrom.stands_mapped stands nonempty
    refine ⟨Nat.le_add_right _ _, stands'.start_lt_stop someValue,
      Text.bytes_le_of_isBoundary stands'.isBoundary_stop, stands'.isBoundary_start,
      stands'.isBoundary_stop, fun span member => apart_or_inside_of_mem_removed member _ _,
      value, part, stands'.slice?_eq, stands.slice?_eq, outside⟩
  · rw [mapEnd, mapStart, Nat.add_left_cancel_iff]
    refine restore_lt_eq_iff (fun cut member => ?_) offset
    obtain ⟨more, isFound⟩ := ((atDirectives_hits _).isDirective member).exists_cons
    exact isFound ▸ List.cons_ne_nil _ _
  · have counted := @restore_end (fun cut place => cut ≤ place) stripped.cuts stripped.tail 0
      fun upTo => decide_eq_true upTo
    rw [whole, Text.bytes_append, base]
    exact congrArg (stripped.base + ·) counted

/-- A text with a directive inside and one at its end. -/
def twoDirectives : Text := "<é@apply xy\x7db@apply zw".toList

/-- What remains of it behind another character is mapped around the first directive and in front of
the last. -/
theorem ofDocument_maps_twoDirectives :
    let content : Text := 'p' :: twoDirectives
    let stripped := ofDocument content 1
    Text.isBoundary content 1 = true ∧ stripped.text = ['<', 'é', '\x7d', 'b'] ∧
      content.utf8[stripped.mapStart 2]? = stripped.text.utf8[2]? ∧
      (stripped.mapStart 1 = 2 ∧ stripped.mapEnd 4 = 14 ∧ ∃ value part,
        Text.slice? content 2 14 = some value ∧ Text.slice? stripped.text 1 4 = some part ∧
          Text.outside stripped.removed 2 value = part) ∧
      stripped.mapEnd 3 ≤ stripped.mapStart 3 ∧ stripped.mapEnd 3 ≠ stripped.mapStart 3 ∧
      stripped.mapStart 5 = Text.bytes content := by
  have boundary : Text.isBoundary ('p' :: twoDirectives) 1 = true :=
    Text.isBoundary_bytes ['p'] twoDirectives
  have isHits : Directive.pattern.hits twoDirectives =
      ([⟨['<', 'é'], "@apply xy".toList⟩, ⟨['\x7d', 'b'], "@apply zw".toList⟩], []) := by
    unfold twoDirectives
    cbv
  have isCut := ofDocument_append ['p'] twoDirectives
  rw [isHits] at isCut
  have maps := ofDocument_maps boundary
  change ofDocument ('p' :: twoDirectives) 1 = _ at isCut
  dsimp only
  rw [isCut] at maps ⊢
  obtain ⟨sameByte, parts, ordered, differ, ends⟩ := maps
  obtain ⟨-, -, -, -, -, -, part⟩ := parts 1 4 (by decide) (by decide) (by decide)
  exact ⟨boundary, rfl, sameByte 2 (by decide), ⟨rfl, rfl, part⟩, ordered 3 3 (Nat.le_refl 3),
    (differ 3).not.mpr (by decide), ends⟩

end Stripped

end ClassHoist
