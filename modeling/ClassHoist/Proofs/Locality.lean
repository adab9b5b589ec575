import ClassHoist.Proofs.ByteScanAgreement
import ClassHoist.Proofs.Quoting

/-! # The end of an expression in place

Where an expression ends is told by the expression and its closing bracket alone. The scan for that
bracket comes to an end for every source, whatever is left open or closed twice in it; and it finds the
same bracket if other text is put in front of the place where it starts, or behind the bracket
(`findClosing_local`).
-/

namespace ClassHoist.Markup.Expression

open Text

variable {close : Char} {input inner after source : Text} {start : Nat}

/-- What follows the closing bracket does not matter. -/
theorem closing?_replace (ended : closing? close input = some (inner, after)) (other : Text) :
    closing? close (inner ++ close :: other) = some (inner, other) := by
  have whole := ended
  rw [closing?_eq_some ended] at whole
  exact Scanner.run_twins (show Scanner.Sane (.start close) from trivial) whole (.refl inner)

/-- **The end of an expression is found in place.** From any place between two characters the scan comes
to an end, and what it finds is what the scanner finds. This is a closing bracket of the kind that was
asked for, at a place between two characters, and it is found whatever stands in front of the expression
and behind the bracket; if there is none, then there is none whatever stands in front. -/
theorem findClosing_local (isCloser : close = ')' ∨ close = ']' ∨ close = '\x7d')
    (boundary : source.isBoundary start = true) :
    ∃ found, findClosing source close 0 start = some found ∧
      found = (closing? close (source.slice start source.bytes)).map (fun cut =>
        start + cut.1.bytes) ∧
      (∀ before, findClosing (before ++ source.slice start source.bytes) close 0 before.bytes =
        some (found.map fun stop => before.bytes + (stop - start))) ∧
      ∀ stop ∈ found, start ≤ stop ∧ stop < source.bytes ∧ byteAt? source stop = some close ∧
        source.isBoundary stop = true ∧ ∀ before after,
          findClosing (before ++ (source.slice start (stop + 1) ++ after)) close 0 before.bytes =
              some (some (before.bytes + (stop - start))) ∧
            closing? close (source.slice start (stop + 1) ++ after) =
              some (source.slice start stop, after) := by
  obtain ⟨lead, rest, whole, rfl⟩ := isBoundary_iff.mp boundary
  have isRest : source.slice lead.bytes source.bytes = rest :=
    slice_of_eq (show source = lead ++ (rest ++ []) by rw [whole, List.append_nil]) rfl
      (by rw [whole, bytes_append])
  refine ⟨_, findClosing_eq whole, by rw [isRest], ?_, ?_⟩
  · intro before
    rw [isRest, findClosing_eq rfl, Option.map_map]
    simp only [Function.comp_def, Nat.add_sub_cancel_left]
  · intro stop found
    obtain ⟨⟨inner, tail⟩, ended, rfl⟩ := Option.map_eq_some_iff.mp found
    -- The source is what is in front, the inner text, the bracket and the rest.
    obtain rfl := closing?_eq_some ended
    have short : close.utf8Size = 1 := by rcases isCloser with rfl | rfl | rfl <;> rfl
    have split : source = (lead ++ inner) ++ close :: tail := by rw [whole, List.append_assoc]
    have place : (lead ++ inner).bytes = lead.bytes + inner.bytes := bytes_append _ _
    have isInner : source.slice lead.bytes (lead.bytes + inner.bytes) = inner :=
      slice_of_eq whole rfl rfl
    have isTaken : source.slice lead.bytes (lead.bytes + inner.bytes + 1) = inner ++ [close] := by
      have cut : source = lead ++ ((inner ++ [close]) ++ tail) := by
        rw [whole, List.append_assoc, List.singleton_append]
      refine slice_of_eq cut rfl ?_
      rw [bytes_append, bytes_cons, short, Nat.add_assoc]
      rfl
    refine ⟨Nat.le_add_right _ _, ?_, ?_, ?_, fun before after => ?_⟩
    · show lead.bytes + inner.bytes < source.bytes
      rw [split, bytes_append, place, bytes_cons, short]
      omega
    · rw [← place]
      exact byteAt?_of_short split short
    · rw [← place, split]
      exact isBoundary_bytes _ _
    · have replaced := closing?_replace ended after
      rw [isTaken, isInner, List.append_assoc, List.singleton_append]
      refine ⟨?_, replaced⟩
      rw [findClosing_eq rfl, replaced, Nat.add_sub_cancel_left]
      rfl

/-- An argument with an escaped quote, a bracket too many, a comment and two closing braces. -/
def crookedCode : Text := "é('\\'é\x7d')])/*\x7d*/\x7d\x7d".toList

/-- The code ends at the first brace outside the literal and the comment. -/
theorem findClosing_local_crookedCode :
    crookedCode.isBoundary 2 = true ∧ findClosing crookedCode '\x7d' 0 2 = some (some 18) ∧
      ∀ before after,
        findClosing (before ++ (crookedCode.slice 2 19 ++ after)) '\x7d' 0 before.bytes =
          some (some (before.bytes + 16)) := by
  have boundary : crookedCode.isBoundary 2 = true := by decide
  obtain ⟨found, isFound, same, -, inPlace⟩ := findClosing_local (.inr (.inr rfl)) boundary
  obtain rfl : found = some 18 := same.trans (by decide)
  exact ⟨boundary, isFound, fun before after => ((inPlace 18 rfl).2.2.2.2 before after).1⟩

end ClassHoist.Markup.Expression
