import ClassHoist.Directive
import ClassHoist.Proofs.ByteOffsets
import ClassHoist.ReadableRange

/-! # Offsets before directives were cut out

What was cut out of a document covers spans of it (`Stripped.removed`), and what stands outside of
them is the text that was left. A place in the text that was left is mapped to a place of the
document with the same text in front of it, once the spans are taken away (`exists_restored`). At a
cut there are several such places, and the maps for starts and for ends choose the last and the
first of them.
-/

namespace ClassHoist

/-- The characters of a text that starts at `offset` which stand in none of the spans. -/
def Text.outside (spans : List Span) : (offset : Nat) → Text → Text
  | _, [] => []
  | offset, c :: rest =>
    if spans.any (·.contains offset) then Text.outside spans (offset + c.utf8Size) rest
    else c :: Text.outside spans (offset + c.utf8Size) rest

namespace Text

/-- What is outside of spans in two texts is what is outside in the first, then in the second. -/
theorem outside_append (spans : List Span) (offset : Nat) (first second : Text) :
    outside spans offset (first ++ second) =
      outside spans offset first ++ outside spans (offset + bytes first) second := by
  induction first generalizing offset with
  | nil => rfl
  | cons c rest ih =>
    simp only [List.cons_append, outside, bytes_cons, ih, ← Nat.add_assoc]
    split <;> rfl

/-- A text that shares no byte with a span is not changed by it. -/
theorem outside_cons_of_apart {span : Span} (spans : List Span) {offset : Nat} {text : Text}
    (apart : span.stop ≤ offset ∨ offset + bytes text ≤ span.start) :
    outside (span :: spans) offset text = outside spans offset text := by
  induction text generalizing offset with
  | nil => rfl
  | cons c rest ih =>
    have positive := c.utf8Size_pos
    rw [bytes_cons] at apart
    have misses : span.contains offset = false := by
      simp only [Span.contains, Bool.and_eq_false_iff, decide_eq_false_iff_not]
      omega
    simp only [outside, List.any_cons, misses, Bool.false_or]
    rw [ih (by omega)]

/-- Nothing is left of a text in a span. -/
theorem outside_cons_of_within {span : Span} (spans : List Span) {offset : Nat} {text : Text}
    (from_ : span.start ≤ offset) (upTo : offset + bytes text ≤ span.stop) :
    outside (span :: spans) offset text = [] := by
  induction text generalizing offset with
  | nil => rfl
  | cons c rest ih =>
    have positive := c.utf8Size_pos
    rw [bytes_cons] at upTo
    have meets : span.contains offset = true := by
      simp only [Span.contains, Bool.and_eq_true, decide_eq_true_eq]
      omega
    simp only [outside, List.any_cons, meets, Bool.true_or, ↓reduceIte]
    exact ih (by omega) (by omega)

end Text

namespace Stripped

/-- The spans of the matches of a text that starts at `offset`. -/
def removedFrom (offset : Nat) : List Hit → List Span
  | [] => []
  | cut :: rest =>
    let start := offset + cut.before.bytes
    let stop := start + cut.found.bytes
    ⟨start, stop⟩ :: removedFrom stop rest

/-- The spans of the document that were cut out. -/
def removed (stripped : Stripped) : List Span := removedFrom stripped.base stripped.cuts

/-- A text, given by its matches and what follows the last of them. -/
def joined (cuts : List Hit) (tail : Text) : Text :=
  cuts.flatMap (fun cut => cut.before ++ cut.found) ++ tail

/-- What is left of a text without its matches. -/
def kept (cuts : List Hit) (tail : Text) : Text := cuts.flatMap Hit.before ++ tail

theorem joined_cons (cut : Hit) (cuts : List Hit) (tail : Text) :
    joined (cut :: cuts) tail = cut.before ++ (cut.found ++ joined cuts tail) := by
  simp only [joined, List.flatMap_cons, List.append_assoc]

theorem kept_cons (cut : Hit) (cuts : List Hit) (tail : Text) :
    kept (cut :: cuts) tail = cut.before ++ kept cuts tail := by
  simp only [kept, List.flatMap_cons, List.append_assoc]

/-- What is removed lies behind the offset from which it is counted. -/
theorem le_start_of_mem_removedFrom {offset : Nat} {cuts : List Hit} {span : Span}
    (member : span ∈ removedFrom offset cuts) : offset ≤ span.start := by
  induction cuts generalizing offset with
  | nil => cases member
  | cons cut rest ih =>
    rcases List.mem_cons.mp member with rfl | later
    · exact Nat.le_add_right _ _
    · have after := ih later
      omega

/-- A text in front of all spans is outside of them. -/
theorem outside_of_le {spans : List Span} {offset : Nat} {text : Text}
    (later : ∀ span ∈ spans, offset + Text.bytes text ≤ span.start) :
    Text.outside spans offset text = text := by
  induction spans with
  | nil =>
    induction text generalizing offset with
    | nil => rfl
    | cons c rest ih => exact congrArg (c :: ·) (ih (by intro span member; cases member))
  | cons span rest ih =>
    rw [Text.outside_cons_of_apart rest (.inr (later span List.mem_cons_self))]
    exact ih fun other member => later other (List.mem_cons_of_mem _ member)

/-- What stands outside of the first cut and before it is all there is before it. -/
theorem outside_removedFrom_before {offset : Nat} {cut : Hit} {cuts : List Hit} {part more : Text}
    (before : cut.before = part ++ more) :
    Text.outside (removedFrom offset (cut :: cuts)) offset part = part := by
  refine outside_of_le fun span member => ?_
  have counted := congrArg Text.bytes before
  rw [Text.bytes_append] at counted
  rcases List.mem_cons.mp member with rfl | later
  · show offset + Text.bytes part ≤ offset + Text.bytes cut.before
    omega
  · have after := le_start_of_mem_removedFrom later
    omega

/-- Counting the cuts that `counts` accepts in front of a place, when it accepts all those before
the place and none after it, gives a place of the whole text with the same text in front of it. -/
theorem exists_restored (counts : Nat → Nat → Bool)
    (accepts : ∀ {place offset}, counts place offset = true → place ≤ offset)
    (refuses : ∀ {place offset}, counts place offset = false → offset ≤ place)
    {cuts : List Hit} {tail before after : Text} (offset : Nat)
    (whole : kept cuts tail = before ++ after) :
    ∃ longer rest, joined cuts tail = longer ++ rest ∧
      Text.bytes longer = restore counts cuts (Text.bytes before) ∧
      Text.outside (removedFrom offset cuts) offset longer = before := by
  induction cuts generalizing before offset with
  | nil => exact ⟨before, after, whole, rfl, outside_of_le (by intro span member; cases member)⟩
  | cons cut rest ih =>
    rw [kept_cons] at whole
    unfold restore
    simp only
    split
    case isTrue counted =>
      obtain ⟨more, rfl, whole'⟩ := Text.exists_append_of_bytes_le whole (accepts counted)
      obtain ⟨longer, left, joins, counts', outside⟩ :=
        ih (offset + cut.before.bytes + cut.found.bytes) whole'
      refine ⟨cut.before ++ (cut.found ++ longer), left, ?_, ?_, ?_⟩
      · rw [joined_cons, joins]
        simp only [List.append_assoc]
      · rw [Text.bytes_append, Text.bytes_append, counts', Text.bytes_append,
          Nat.add_sub_cancel_left, Nat.add_assoc]
      · rw [Text.outside_append, Text.outside_append,
          outside_removedFrom_before (List.append_nil _).symm]
        simp only [removedFrom]
        rw [Text.outside_cons_of_within _ (Nat.le_refl _) (Nat.le_refl _),
          Text.outside_cons_of_apart _ (.inl (Nat.le_refl _)), outside]
        rfl
    case isFalse uncounted =>
      have short := refuses (Bool.not_eq_true _ ▸ uncounted)
      obtain ⟨more, split, -⟩ := Text.exists_append_of_bytes_le whole.symm short
      refine ⟨before, more ++ (cut.found ++ joined rest tail), ?_, rfl,
        outside_removedFrom_before split⟩
      rw [joined_cons, split, List.append_assoc]

/-- The map for ends comes before any map that counts at least the cuts strictly before it. -/
theorem restore_le_restore {counts : Nat → Nat → Bool}
    (accepts : ∀ {place first second}, place < first → first ≤ second →
      counts place second = true)
    (cuts : List Hit) {first second : Nat} (ordered : first ≤ second) :
    restore (fun cut place => cut < place) cuts first ≤ restore counts cuts second := by
  induction cuts generalizing first second with
  | nil => exact ordered
  | cons cut rest ih =>
    unfold restore
    simp only [decide_eq_true_eq]
    by_cases inside : cut.before.bytes < first
    · have later := @ih (first - cut.before.bytes) (second - cut.before.bytes) (by omega)
      rw [if_pos inside, if_pos (accepts inside ordered)]
      omega
    · rw [if_neg inside]
      split <;> omega

variable {stripped : Stripped}

/-- Something that ends in front of where something else starts does so in the document. -/
theorem mapEnd_le_mapStart {first second : Nat} (ordered : first ≤ second) :
    stripped.mapEnd first ≤ stripped.mapStart second := by
  refine Nat.add_le_add_left (restore_le_restore ?_ stripped.cuts ordered) stripped.base
  intro place first second before ordered
  rw [decide_eq_true_eq]
  omega

/-- Ends keep their order in the document. -/
theorem mapEnd_le_mapEnd {first second : Nat} (ordered : first ≤ second) :
    stripped.mapEnd first ≤ stripped.mapEnd second := by
  refine Nat.add_le_add_left (restore_le_restore ?_ stripped.cuts ordered) stripped.base
  intro place first second before ordered
  rw [decide_eq_true_eq]
  omega

/-- The text is what is left of a document from some boundary on. -/
def IsFrom (content : Text) (stripped : Stripped) : Prop :=
  ∃ start, content = start ++ joined stripped.cuts stripped.tail ∧
    Text.bytes start = stripped.base

/-- What is left of a document comes from it. -/
theorem isFrom_ofDocument {content : Text} {start : Nat}
    (boundary : Text.isBoundary content start = true) : IsFrom content (ofDocument content start) := by
  obtain ⟨before, part, rfl, rfl⟩ := Text.isBoundary_iff.mp boundary
  refine ⟨before, ?_, rfl⟩
  simp only [ofDocument, Text.splitAt?_append, Option.map_some, Option.getD_some, joined,
    Pattern.hits_join]

/-- A place in what is left has a place in the document, whichever cuts at it are counted. -/
theorem IsFrom.isBoundary_restored {content : Text} {counts : Nat → Nat → Bool}
    (isFrom : IsFrom content stripped)
    (accepts : ∀ {place offset}, counts place offset = true → place ≤ offset)
    (refuses : ∀ {place offset}, counts place offset = false → offset ≤ place) {offset : Nat}
    (boundary : Text.isBoundary stripped.text offset = true) :
    Text.isBoundary content (stripped.base + restore counts stripped.cuts offset) = true := by
  obtain ⟨start, rfl, base⟩ := isFrom
  obtain ⟨before, after, whole, rfl⟩ := Text.isBoundary_iff.mp boundary
  obtain ⟨longer, rest, joins, counted, -⟩ :=
    exists_restored counts accepts refuses stripped.base whole
  refine Text.isBoundary_iff.mpr ⟨start ++ longer, rest, ?_, ?_⟩
  · rw [joins, List.append_assoc]
  · rw [Text.bytes_append, base, counted]

/-- A place where something starts has a place in the document. -/
theorem IsFrom.isBoundary_mapStart {content : Text} (isFrom : IsFrom content stripped)
    {offset : Nat} (boundary : Text.isBoundary stripped.text offset = true) :
    Text.isBoundary content (stripped.mapStart offset) = true :=
  isFrom.isBoundary_restored of_decide_eq_true
    (fun more => Nat.le_of_not_le (of_decide_eq_false more)) boundary

/-- A place where something ends has a place in the document. -/
theorem IsFrom.isBoundary_mapEnd {content : Text} (isFrom : IsFrom content stripped) {offset : Nat}
    (boundary : Text.isBoundary stripped.text offset = true) :
    Text.isBoundary content (stripped.mapEnd offset) = true :=
  isFrom.isBoundary_restored (fun less => Nat.le_of_lt (of_decide_eq_true less))
    (fun more => Nat.le_of_not_lt (of_decide_eq_false more)) boundary

/-- **Places of a part.** A nonempty part of the text that was left stands, with what was cut out
inside it, between the places to which its start and its end are mapped. -/
theorem IsFrom.stands_mapped {content : Text} (isFrom : IsFrom content stripped)
    {start stop : Nat} {part : Text} (stands : Text.Stands stripped.text start stop part)
    (nonempty : part ≠ []) :
    ∃ value, value ≠ [] ∧
      Text.Stands content (stripped.mapStart start) (stripped.mapEnd stop) value ∧
      Text.outside stripped.removed (stripped.mapStart start) value = part := by
  obtain ⟨lead, rfl, base⟩ := isFrom
  obtain ⟨before, after, whole, rfl, rfl⟩ := stands
  obtain ⟨first, rest, joins, counted, outside⟩ :=
    exists_restored (fun cut place => cut ≤ place)
      (by intro place offset less; exact of_decide_eq_true less)
      (by intro place offset more; have := of_decide_eq_false more; omega) stripped.base whole
  rw [← List.append_assoc] at whole
  obtain ⟨second, rest', joins', counted', outside'⟩ :=
    exists_restored (fun cut place => cut < place)
      (by intro place offset less; have := of_decide_eq_true less; omega)
      (by intro place offset more; have := of_decide_eq_false more; omega) stripped.base whole
  rw [Text.bytes_append] at counted'
  have same : first ++ rest = second ++ rest' := joins.symm.trans joins'
  have shorter : first.bytes < second.bytes := by
    refine Nat.lt_of_not_le fun longer => nonempty ?_
    obtain ⟨more, rfl, -⟩ := Text.exists_append_of_bytes_le same.symm longer
    rw [Text.outside_append, outside', List.append_assoc] at outside
    exact (List.append_eq_nil_iff.mp (List.append_right_eq_self.mp outside)).1
  obtain ⟨value, rfl, rfl⟩ := Text.exists_append_of_bytes_le same (Nat.le_of_lt shorter)
  rw [Text.bytes_append] at shorter counted'
  have startIs : stripped.mapStart before.bytes = stripped.base + first.bytes := by
    rw [mapStart, counted]
  have stopIs : stripped.mapEnd (before.bytes + part.bytes) =
      stripped.base + (first.bytes + value.bytes) := by
    rw [mapEnd, counted']
  refine ⟨value, ?_, ⟨lead ++ first, rest', ?_, ?_, ?_⟩, ?_⟩
  · rintro rfl
    exact Nat.lt_irrefl _ shorter
  · rw [joins, List.append_assoc]
  · rw [Text.bytes_append, base, startIs]
  · omega
  · rw [Text.outside_append, outside] at outside'
    rw [startIs]
    exact List.append_cancel_left outside'

/-- Spans of a document of a size that offsets can tell apart are mapped without saturation. -/
theorem mapSpan_eq {span : Span} (nonempty : span.start < span.stop)
    (first : stripped.mapStart span.start ≤ Offset.limit)
    (last : stripped.mapEnd span.stop ≤ Offset.limit) :
    stripped.mapSpan span = ⟨stripped.mapStart span.start, stripped.mapEnd span.stop⟩ := by
  rw [mapSpan, if_pos nonempty, Span.saturated, Offset.saturate, Offset.saturate,
    Nat.min_eq_left first, Nat.min_eq_left last]

end Stripped

/-- Reading starts at a boundary of the document. -/
theorem ReadableRange.isBoundary_of_start? {content : Text} {start : Nat}
    (readable : (ofContent content).start? = some start) :
    Text.isBoundary content start = true := by
  unfold ofContent at readable
  split at readable
  · obtain rfl := Option.some.inj readable
    exact Text.isBoundary_iff.mpr ⟨[], content, rfl, rfl⟩
  · split at readable
    · cases readable
    · split at readable
      · cases readable
      · next cuts tail _ same =>
        obtain rfl := Option.some.inj readable
        have joins := Pattern.hits_join scriptEnd content
        rw [same] at joins
        refine Text.isBoundary_iff.mpr
          ⟨(cuts.flatMap fun hit => hit.before ++ hit.found) ++ tail.takeWhile Text.isBlank,
            tail.dropWhile Text.isBlank, ?_, Text.bytes_append _ _⟩
        rw [List.append_assoc, List.takeWhile_append_dropWhile]
        exact joins.symm

end ClassHoist
