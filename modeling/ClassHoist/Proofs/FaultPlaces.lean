import ClassHoist.Proofs.Restored
import ClassHoist.Proofs.VerbatimDrafts

/-! # Where faults are shown in the document

A fault is found in what remains of a document without its directives, and shown in the document
itself. The end of what a fault covers is mapped in front of the directives that were cut out there,
and its start behind them, so a fault that covers text covers the same text in the document, with no
directives in it but those strictly inside (`Stripped.apart_or_strictly_inside`). A fault without
text keeps its place, and the end of what remains is the end of the document (`hoist_faults`).
-/

namespace ClassHoist

open Markup

namespace Stripped

variable {stripped : Stripped} {content : Text} {cuts : List Hit} {offset place first last : Nat}
  {span : Span}

/-- Counting cuts moves no offset back. -/
theorem le_restore (counts : Nat → Nat → Bool) (cuts : List Hit) (offset : Nat) :
    offset ≤ restore counts cuts offset := by
  induction cuts generalizing offset with
  | nil => exact Nat.le_refl _
  | cons cut cuts ih =>
    rw [restore]
    split
    case isTrue =>
      have later := ih (offset - cut.before.bytes)
      omega
    case isFalse => exact Nat.le_refl _

/-- Something that starts at a place does so strictly in front of what is cut out behind it. -/
theorem restore_le_apart (member : span ∈ removedFrom place cuts) (offset : Nat) :
    span.stop ≤ place + restore (fun cut place => cut ≤ place) cuts offset ∨
      place + restore (fun cut place => cut ≤ place) cuts offset < span.start := by
  induction cuts generalizing place offset with
  | nil => cases member
  | cons cut cuts ih =>
    rw [restore]
    simp only [decide_eq_true_eq]
    split
    case isTrue upTo =>
      rw [← Nat.add_assoc, ← Nat.add_assoc]
      rcases List.mem_cons.mp member with rfl | later
      · exact .inl (Nat.le_add_right _ _)
      · exact ih later _
    case isFalse before =>
      refine .inr ?_
      rcases List.mem_cons.mp member with rfl | later
      · exact Nat.add_lt_add_left (Nat.lt_of_not_le before) place
      · have behind := le_start_of_mem_removedFrom later
        omega

/-- Something that ends at a place does so strictly behind what is cut out in front of it. -/
theorem restore_lt_apart (member : span ∈ removedFrom place cuts) (offset : Nat) :
    span.stop < place + restore (fun cut place => cut < place) cuts offset ∨
      place + restore (fun cut place => cut < place) cuts offset ≤ span.start := by
  induction cuts generalizing place offset with
  | nil => cases member
  | cons cut cuts ih =>
    rw [restore]
    simp only [decide_eq_true_eq]
    split
    case isTrue behind =>
      have further := le_restore (fun cut place => cut < place) cuts (offset - cut.before.bytes)
      rw [← Nat.add_assoc, ← Nat.add_assoc]
      rcases List.mem_cons.mp member with rfl | later
      · refine .inl (Nat.lt_add_of_pos_right ?_)
        omega
      · exact ih later _
    case isFalse upTo =>
      refine .inr ?_
      rcases List.mem_cons.mp member with rfl | later
      · exact Nat.add_le_add_left (Nat.le_of_not_lt upTo) place
      · have behind := le_start_of_mem_removedFrom later
        omega

/-- What was cut out lies outside a part of what remains, or strictly inside it. -/
theorem apart_or_strictly_inside (member : span ∈ stripped.removed) (first last : Nat) :
    span.stop ≤ stripped.mapStart first ∨ stripped.mapEnd last ≤ span.start ∨
      (stripped.mapStart first < span.start ∧ span.stop < stripped.mapEnd last) := by
  rcases restore_le_apart member first with left | right
  · exact .inl left
  · exact .inr ((restore_lt_apart member last).symm.imp id fun upTo => ⟨right, upTo⟩)

/-- The end of what remains leads to the end of the document. -/
theorem IsFrom.mapStart_end (isFrom : IsFrom content stripped) :
    stripped.mapStart (Text.bytes stripped.text) = Text.bytes content := by
  obtain ⟨front, rfl, base⟩ := isFrom
  have counted := @restore_end (fun cut place => cut ≤ place) stripped.cuts stripped.tail 0
    fun upTo => decide_eq_true upTo
  rw [Text.bytes_append, base]
  exact congrArg (stripped.base + ·) counted

end Stripped

/-- A fault of what remains is shown in the document, behind what is left out of reading. -/
structure Markup.Fault.ShownAs (content : Text) (stripped : Stripped) (found shown : Fault) :
    Prop where
  cause : shown.cause = found.cause
  fits : shown.span.Fits content
  behind : stripped.base ≤ shown.span.start
  covers : found.span.start < found.span.stop → shown.span.start < shown.span.stop ∧
    (∃ value part, content.Stands shown.span.start shown.span.stop value ∧
      stripped.text.Stands found.span.start found.span.stop part ∧
        Text.outside stripped.removed shown.span.start value = part) ∧
      ∀ span ∈ stripped.removed, span.stop ≤ shown.span.start ∨ shown.span.stop ≤ span.start ∨
        (shown.span.start < span.start ∧ span.stop < shown.span.stop)
  atEnd : found.span.start = Text.bytes stripped.text →
    shown.span = ⟨Text.bytes content, Text.bytes content⟩

/-- A source that is not read has faults, and they show in it. -/
theorem Markup.faults_of_read? {source : Text} {found : List Fault}
    (unread : read? source = .error found) :
    found ≠ [] ∧ ∀ fault ∈ found, fault.span.Fits source := by
  have verbatim := Draft.run_keeps_verbatim (Draft.start_verbatim source)
  obtain ⟨rfl, nonempty⟩ := faults_eq_of_read? unread
  exact ⟨nonempty, fun fault member => verbatim.faults fault (List.mem_reverse.mp member)⟩

section Faults

variable {content : Text} {stripped : Stripped} {found : Fault}

/-- A fault that covers text covers it in the document. -/
theorem shownAs_of_lt (small : Text.bytes content ≤ Offset.limit)
    (isFrom : stripped.IsFrom content) (fits : found.span.Fits stripped.text)
    (nonempty : found.span.start < found.span.stop) :
    found.ShownAs content stripped ⟨found.cause, stripped.mapSpan found.span⟩ := by
  obtain ⟨before, part, after, split, startIs, stopIs⟩ :=
    Text.exists_parts_of_isBoundary fits.start fits.stop fits.ordered
  have stands : stripped.text.Stands found.span.start found.span.stop part :=
    ⟨before, after, split, startIs, stopIs⟩
  have somePart : part ≠ [] := by
    rintro rfl
    exact absurd stopIs (Nat.ne_of_gt nonempty)
  obtain ⟨value, someValue, stands', outside⟩ := isFrom.stands_mapped stands somePart
  have upTo := Text.bytes_le_of_isBoundary stands'.isBoundary_stop
  have ordered := stands'.start_lt_stop someValue
  have mapped : stripped.mapSpan found.span = ⟨stripped.mapStart found.span.start,
      stripped.mapEnd found.span.stop⟩ := Stripped.mapSpan_eq nonempty (by omega) (by omega)
  rw [mapped]
  exact ⟨rfl, ⟨Nat.le_of_lt ordered, upTo, stands'.isBoundary_start, stands'.isBoundary_stop⟩,
    Nat.le_add_right _ _, fun _ => ⟨ordered, ⟨value, part, stands', stands, outside⟩,
      fun span member => Stripped.apart_or_strictly_inside member _ _⟩,
    fun isEnd => absurd fits.upTo (by omega)⟩

/-- A fault without text is shown at its place. -/
theorem shownAs_of_eq (small : Text.bytes content ≤ Offset.limit)
    (isFrom : stripped.IsFrom content) (fits : found.span.Fits stripped.text)
    (empty : ¬ found.span.start < found.span.stop) :
    found.ShownAs content stripped ⟨found.cause, stripped.mapSpan found.span⟩ := by
  have boundary := isFrom.isBoundary_mapStart fits.start
  have upTo := Text.bytes_le_of_isBoundary boundary
  have mapped : stripped.mapSpan found.span = ⟨stripped.mapStart found.span.start,
      stripped.mapStart found.span.start⟩ := by
    rw [Stripped.mapSpan, if_neg empty, Offset.saturate, Nat.min_eq_left (upTo.trans small)]
    rfl
  rw [mapped]
  refine ⟨rfl, ⟨Nat.le_refl _, upTo, boundary, boundary⟩, Nat.le_add_right _ _,
    fun nonempty => absurd nonempty empty, fun isEnd => ?_⟩
  rw [isEnd, isFrom.mapStart_end]

/-- **Faults are shown in the document.** A document that fails to be read shows a fault for each
that is found in what remains of it, with the same cause and in the same order: between characters
of the document, behind what is left out of reading; over the text it covers, with no directives but
those strictly inside; and at the end of the document if it is found at the end of what remains. -/
theorem hoist_faults {options : Options} {file : Option String} {shown : List Fault}
    (small : Text.bytes content ≤ Offset.limit)
    (failed : hoist options content file = .error (.faults shown)) :
    ∃ start, (ReadableRange.ofContent content).start? = some start ∧
      let stripped := Stripped.ofDocument content start
      ∃ found, read? stripped.text = .error found ∧ shown ≠ [] ∧
        List.Forall₂ (Fault.ShownAs content stripped) found shown := by
  unfold hoist at failed
  split at failed
  case h_1 => cases failed
  case h_2 start begins =>
    refine ⟨start, begins, ?_⟩
    intro stripped
    have isFrom : stripped.IsFrom content :=
      Stripped.isFrom_ofDocument (ReadableRange.isBoundary_of_start? begins)
    simp only at failed
    split at failed
    case h_2 => split at failed <;> cases failed
    case h_1 found unread =>
      obtain rfl := HoistError.faults.inj (Except.error.inj failed)
      obtain ⟨someFault, fits⟩ := faults_of_read? unread
      refine ⟨found, unread, fun none => someFault (List.map_eq_nil_iff.mp none), ?_⟩
      refine List.forall₂_map_right_iff.mpr (List.forall₂_same.mpr fun fault member => ?_)
      by_cases nonempty : fault.span.start < fault.span.stop
      · exact shownAs_of_lt small isFrom (fits fault member) nonempty
      · exact shownAs_of_eq small isFrom (fits fault member) nonempty

end Faults

/-- A block that is none, with a directive in it, and a comment that does not end, with a directive
at its end. -/
def faultyBlock : Text := "\x7b#x@apply yz\x7d<!--@apply zw".toList

/-- What is found in what remains of it. -/
def faultyBlockFaults : List Fault :=
  [⟨.unknownBlock "x", ⟨0, 4⟩⟩, ⟨.unexpectedEnd .commentEnd, ⟨8, 8⟩⟩]

theorem ofDocument_faultyBlock : Stripped.ofDocument faultyBlock 0 =
    ⟨0, [⟨"\x7b#x".toList, "@apply yz".toList⟩, ⟨"\x7d<!--".toList, "@apply zw".toList⟩], []⟩ := by
  have isHits : Directive.pattern.hits faultyBlock =
      ([⟨"\x7b#x".toList, "@apply yz".toList⟩, ⟨"\x7d<!--".toList, "@apply zw".toList⟩], []) := by
    unfold faultyBlock
    cbv
  have isCut := Stripped.ofDocument_append [] faultyBlock
  rw [isHits] at isCut
  exact isCut

theorem read?_faultyBlock : read? "\x7b#x\x7d<!--".toList = .error faultyBlockFaults := by
  have block : (Draft.start "\x7b#x\x7d<!--".toList).step = some ⟨⟨4, "<!--".toList⟩, [], [],
      none, none, none, [⟨.unknownBlock "x", ⟨0, 4⟩⟩]⟩ := by rfl
  have comment : (⟨⟨4, "<!--".toList⟩, [], [], none, none, none,
      [⟨.unknownBlock "x", ⟨0, 4⟩⟩]⟩ : Draft).step =
        some ⟨⟨8, []⟩, [], [], none, none, none, faultyBlockFaults.reverse⟩ := by rfl
  unfold read? Markup.read
  rw [Draft.run_of_step block, Draft.run_of_step comment, Draft.run_of_step_eq_none (by rfl)]
  rfl

/-- The block is shown with the directive in it, and the end of the comment behind the other. -/
theorem hoist_faults_faultyBlock :
    Text.bytes faultyBlock ≤ Offset.limit ∧
      hoist ⟨true, true⟩ faultyBlock none = .error (.faults
        [⟨.unknownBlock "x", ⟨0, 13⟩⟩, ⟨.unexpectedEnd .commentEnd, ⟨26, 26⟩⟩]) ∧
      Fault.ShownAs faultyBlock (Stripped.ofDocument faultyBlock 0)
        ⟨.unknownBlock "x", ⟨0, 4⟩⟩ ⟨.unknownBlock "x", ⟨0, 13⟩⟩ := by
  have small : Text.bytes faultyBlock ≤ Offset.limit := by decide
  have begins : (ReadableRange.ofContent faultyBlock).start? = some 0 := by rfl
  have unread : read? (Stripped.ofDocument faultyBlock 0).text = .error faultyBlockFaults := by
    rw [ofDocument_faultyBlock]
    exact read?_faultyBlock
  have failed : hoist ⟨true, true⟩ faultyBlock none = .error (.faults
      [⟨.unknownBlock "x", ⟨0, 13⟩⟩, ⟨.unexpectedEnd .commentEnd, ⟨26, 26⟩⟩]) := by
    unfold hoist
    simp only [begins, unread]
    rw [ofDocument_faultyBlock]
    rfl
  obtain ⟨start, begins', found, unread', -, all⟩ := hoist_faults small failed
  obtain rfl := Option.some.inj (begins.symm.trans begins')
  obtain rfl := Except.error.inj (unread.symm.trans unread')
  exact ⟨small, failed, (List.forall₂_cons.mp all).1⟩

end ClassHoist
