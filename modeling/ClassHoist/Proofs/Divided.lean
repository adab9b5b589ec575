import ClassHoist.Proofs.Outputs
import ClassHoist.Proofs.Parts

/-! # The parts of a processed document

Where what is left of a content without directives is divided into parts (`Divided`), the output of its
patch leaves the same parts without directives, exchanged (`Rewrites`): where no rules are put in, where
they are put into a style (`Divided.rewrites_insertion`), and where they make up a new style at the end,
which is further parts (`Divided.rewrites_appended`).
-/

namespace ClassHoist

open Markup Directive

variable {stripped : Stripped} {content : Text} {document : Document}

namespace Stripped

theorem ofDocument_append (lead part : Text) : ofDocument (lead ++ part) (Text.bytes lead) =
    ⟨Text.bytes lead, (pattern.hits part).1, (pattern.hits part).2⟩ := by
  simp only [ofDocument, Text.splitAt?_append, Option.map_some, Option.getD_some]

theorem text_ofDocument_append (lead part : Text) :
    (ofDocument (lead ++ part) (Text.bytes lead)).text = strip part := by
  simp only [ofDocument_append, text, strip, Pattern.replaceAll, List.append_nil]

/-- Behind everything that is kept, everything that is cut out is counted. -/
theorem restore_end {counts : Nat → Nat → Bool} (cuts : List Hit) (tail : Text) {more : Nat}
    (accepts : ∀ {place offset}, place + more ≤ offset → counts place offset = true) :
    restore counts cuts (Text.bytes (kept cuts tail) + more) = Text.bytes (joined cuts tail) + more := by
  induction cuts with
  | nil => rfl
  | cons cut cuts ih =>
    rw [kept_cons, joined_cons, restore]
    simp only [Text.bytes_append, Nat.add_assoc]
    rw [if_pos (accepts (by omega)), Nat.add_sub_cancel_left, ih]

end Stripped

namespace Markup

variable {site site' : Option Nat} {offset : Nat} {before : Text} {parts : List Markup.Part}

theorem Laid.isSome_of_mem (laid : Laid site offset before parts) (member : .rules ∈ parts) :
    site ≠ none := by
  induction parts generalizing offset before with
  | nil => cases member
  | cons part parts ih =>
    cases part with
    | kept text => exact ih laid ((List.mem_cons.mp member).resolve_left nofun)
    | classes usage => exact ih laid.2.2.2 ((List.mem_cons.mp member).resolve_left nofun)
    | rules => exact laid.1 ▸ nofun

/-- Parts without a place for rules can be followed by others. -/
theorem Laid.append {more : List Markup.Part} (laid : Laid site offset before parts)
    (noRules : .rules ∉ parts) (later : Laid site' (offset + Text.bytes (oldText parts)) [] more) :
    Laid site' offset before (parts ++ more) := by
  induction parts generalizing offset before with
  | nil =>
    have moved := later.append_left before
    rwa [List.append_nil] at moved
  | cons part parts ih =>
    have noRules' : .rules ∉ parts := fun member => noRules (List.mem_cons_of_mem _ member)
    have old : oldText (parts ++ more) = oldText parts ++ oldText more := List.flatMap_append
    have whole : Text.bytes (oldText (part :: parts)) =
        Text.bytes part.old + Text.bytes (oldText parts) := Text.bytes_append _ _
    rw [whole, ← Nat.add_assoc] at later
    cases part with
    | kept text => exact ih laid noRules' later
    | classes usage =>
      obtain ⟨start, slot, busy, laid⟩ := laid
      refine ⟨start, ?_, ?_, ih laid noRules' later⟩
      · exact old ▸ slot.append_right _
      · exact old ▸ busy.mono (List.subset_append_left _ _)
    | rules => exact absurd List.mem_cons_self noRules

end Markup

/-- Cutting out directives leaves the parts, exchanged. -/
theorem Segmented.strip_edited {exchange : Exchange} {stretches : List Stretch}
    {behind added : Text} {site : Option Nat} {offset : Nat}
    (rules : ∀ behind, Settles behind added exchange.rules)
    (segmented : Segmented behind exchange stretches) (ends : Settles [] behind [])
    (groups : ∀ usage ∈ stretchUsages stretches, usage.group ≠ [])
    (laid : Laid site offset [] (stretches.map Stretch.part)) :
    strip (stretchEdited added stretches ++ behind) =
      newText exchange (stretches.map Stretch.part) := by
  have settles := segmented.settles_edited rules ends groups laid (.inl ⟨rfl, rfl⟩)
  have cut := ends.strip_append
  rw [List.append_nil, strip, strip, Pattern.replaceAll_nil] at cut
  rw [← List.nil_append (stretchEdited added stretches), settles.strip_append, strip, cut]
  exact List.append_nil _

/-- A place for rules among the parts is one among the stretches. -/
theorem exists_split_of_rules {stretches : List Stretch} {first second : List Markup.Part}
    (isParts : stretches.map Stretch.part = first ++ .rules :: second) (noRules : .rules ∉ first)
    (noRules' : .rules ∉ second) :
    ∃ front back, stretches = front ++ .rules :: back ∧ .rules ∉ front ∧ .rules ∉ back := by
  obtain ⟨front, rest, rfl, rfl, isRest⟩ := List.map_eq_append_iff.mp isParts
  obtain ⟨stretch, back, rfl, isRules, rfl⟩ := List.map_eq_cons_iff.mp isRest
  cases stretch with
  | kept | classes => cases isRules
  | rules =>
    exact ⟨front, back, rfl, fun member => noRules (List.mem_map_of_mem member),
      fun member => noRules' (List.mem_map_of_mem member)⟩

/-- Classes stand where their spans say. -/
theorem Markup.Document.Placed.spans {text : Text} (placed : document.Placed text) :
    ∀ usage ∈ document.usages, usage.group ≠ [] ∧
      usage.span.stop = usage.span.start + Text.bytes usage.group := by
  intro usage member
  obtain ⟨nonempty, -, -, -, -, stop⟩ := placed.holds usage member
  exact ⟨nonempty, stop⟩

/-- Stretches that stand between what is not read and what is cut out at the end. -/
def enclosed (lead behind : Text) (stretches : List Stretch) : List Stretch :=
  .kept lead [] :: (stretches ++ [.kept behind []])

theorem stretchEdited_enclosed (added lead behind : Text) (stretches : List Stretch) :
    stretchEdited added (enclosed lead behind stretches) =
      lead ++ (stretchEdited added stretches ++ behind) := by
  simp only [enclosed, stretchEdited, List.flatMap_cons, List.flatMap_append, List.flatMap_nil,
    List.append_nil, Stretch.edited]

theorem stretchUsages_enclosed (lead behind : Text) (stretches : List Stretch) :
    stretchUsages (enclosed lead behind stretches) = stretchUsages stretches := by
  rw [enclosed, show stretchUsages (.kept lead [] :: (stretches ++ [.kept behind []])) =
    stretchUsages (stretches ++ [.kept behind []]) from rfl, stretchUsages_append]
  exact List.append_nil _

/-- What is left of a content without directives is divided into parts. -/
structure Divided (content : Text) (stripped : Stripped) (exchange : Exchange) (site : Option Nat)
    (parts : List Markup.Part) : Prop where
  isFrom : stripped.IsFrom content
  cut : Stripped.AtDirectives stripped.cuts stripped.tail
  named : ∀ usage, exchange.name usage = stripped.shownName usage
  text : stripped.text = oldText parts
  laid : Laid site 0 [] parts
  spans : ∀ usage ∈ parts.filterMap Markup.Part.usage?, usage.group ≠ [] ∧
    usage.span.stop = usage.span.start + Text.bytes usage.group

/-- The text is that of the parts, exchanged, once directives have been cut out of what follows some
bytes. -/
def Rewrites (exchange : Exchange) (base : Nat) (parts : List Markup.Part) (output : Text) : Prop :=
  ∃ lead edited, Text.bytes lead = base ∧ output = lead ++ edited ∧
    strip edited = newText exchange parts

namespace Divided

variable {exchange : Exchange} {site : Option Nat} {parts : List Markup.Part} {added : Text}
  {edits : List Overwrite}

/-- **The stretches of a content.** They cover it, and once they have been edited, cutting out
directives leaves the parts, exchanged. -/
theorem exists_enclosed (divided : Divided content stripped exchange site parts)
    (rules : ∀ behind, Settles behind added exchange.rules) :
    ∃ lead stretches behind, Text.bytes lead = stripped.base ∧ stretches.map Stretch.part = parts ∧
      content = stretchText (enclosed lead behind stretches) ∧
        (Stripped.KeepsEnd stripped.cuts stripped.tail → behind = []) ∧
          StretchesAt stripped site 0 (enclosed lead behind stretches) ∧
            strip (stretchEdited added stretches ++ behind) = newText exchange parts := by
  obtain ⟨lead, whole, base⟩ := divided.isFrom
  obtain ⟨stretches, behind, isParts, joins, ends, isEnd, segmented, placed⟩ :=
    exists_stretches divided.named divided.cut divided.text divided.laid divided.spans (.base stripped)
  refine ⟨lead, stretches, behind, base, isParts, ?_, isEnd, ?_, ?_⟩
  · rw [whole, joins]
    simp only [enclosed, stretchText, List.flatMap_cons, List.flatMap_append, List.flatMap_nil,
      List.append_nil, Stretch.text]
  · show StretchesAt stripped site (0 + Text.bytes lead) (stretches ++ [.kept behind []])
    rw [Nat.zero_add, base]
    exact stretchesAt_append.mpr ⟨placed, trivial⟩
  · subst isParts
    exact segmented.strip_edited rules ends (fun usage member => (divided.spans usage member).1)
      divided.laid

/-- The output where no rules are put in. -/
theorem rewrites (divided : Divided content stripped exchange site parts)
    (noRules : exchange.rules = [])
    (overwrites : Overwrites content stripped (parts.filterMap Markup.Part.usage?) edits) :
    Rewrites exchange stripped.base parts (Patch.output ⟨content, edits, [], []⟩) := by
  obtain ⟨lead, stretches, behind, base, rfl, isContent, -, placed, cutOut⟩ :=
    divided.exists_enclosed (show ∀ behind, Settles behind [] exchange.rules from fun _ => by
      rw [noRules]
      exact .nil)
  refine ⟨lead, stretchEdited [] stretches ++ behind, base, ?_, cutOut⟩
  rw [← stretchEdited_enclosed]
  exact overwrites.output isContent placed (stretchUsages_enclosed _ _ _)

/-- The output where rules are put into the style. -/
theorem rewrites_insertion {first second : List Markup.Part}
    (divided : Divided content stripped exchange site (first ++ .rules :: second))
    (noRules : .rules ∉ first) (noRules' : .rules ∉ second)
    (rules : ∀ behind, Settles behind added exchange.rules)
    (overwrites : Overwrites content stripped
      ((first ++ .rules :: second).filterMap Markup.Part.usage?) edits)
    {place : Nat} (isPlace : site.map stripped.mapEnd = some place)
    (sound : Patch.Sound ⟨content, edits, [⟨place, added⟩], []⟩) :
    Rewrites exchange stripped.base (first ++ .rules :: second)
      (Patch.output ⟨content, edits, [⟨place, added⟩], []⟩) := by
  obtain ⟨lead, stretches, behind, base, isParts, isContent, -, placed, cutOut⟩ :=
    divided.exists_enclosed rules
  refine ⟨lead, stretchEdited added stretches ++ behind, base, ?_, cutOut⟩
  have isUsages := (stretchUsages_enclosed lead behind stretches).trans
    (congrArg (List.filterMap Markup.Part.usage?) isParts)
  obtain ⟨front, back, rfl, absent, absent'⟩ := exists_split_of_rules isParts noRules noRules'
  have split : enclosed lead behind (front ++ .rules :: back) =
      (.kept lead [] :: front) ++ .rules :: (back ++ [.kept behind []]) := by
    simp only [enclosed, List.append_assoc, List.cons_append]
  rw [← stretchEdited_enclosed]
  rw [split] at isContent placed isUsages ⊢
  exact overwrites.output_insertion (by simpa using absent) (by simpa using absent') isContent placed
    isUsages isPlace sound

end Divided

/-- The tag that opens a new style. -/
def styleLead : Text := ['<', 's', 't', 'y', 'l', 'e', '>']

/-- The tag that closes a new style. -/
def styleTail : Text := ['<', '/', 's', 't', 'y', 'l', 'e', '>']

/-- A style without content. -/
def emptyStyle : Text := styleLead ++ styleTail

/-- The parts of a new style for rules. -/
def styleParts : List Markup.Part := [.kept styleLead, .rules, .kept styleTail]

theorem laid_styleParts (offset : Nat) :
    Laid (some (offset + Text.bytes styleLead)) offset [] styleParts :=
  ⟨rfl, ⟨['<', 's', 't', 'y', 'l', 'e'], rfl⟩, ⟨'<', '/', by decide, by decide, rfl, rfl, by decide⟩,
    trivial⟩

namespace Divided

variable {exchange : Exchange} {site : Option Nat} {parts : List Markup.Part}

/-- A new style at the end is further parts. -/
theorem append_style (divided : Divided content stripped exchange site parts)
    (noRules : .rules ∉ parts)
    (stays : strip (Stripped.joined stripped.cuts stripped.tail ++ emptyStyle) =
      stripped.text ++ emptyStyle) :
    Divided (content ++ styleLead ++ styleTail)
      { stripped with tail := stripped.tail ++ styleLead ++ styleTail } exchange
      (some (Text.bytes stripped.text + Text.bytes styleLead)) (parts ++ styleParts) where
  isFrom := by
    obtain ⟨lead, whole, base⟩ := divided.isFrom
    refine ⟨lead, ?_, base⟩
    rw [whole]
    simp only [Stripped.joined, List.append_assoc]
  cut := by
    have cut := divided.cut.append (show styleLead ++ styleTail ≠ [] from List.cons_ne_nil _ _) (by decide)
      stays
    rwa [← List.append_assoc] at cut
  named := divided.named
  text := by
    rw [show oldText (parts ++ styleParts) = oldText parts ++ oldText styleParts from
      List.flatMap_append, ← divided.text]
    simp only [Stripped.text, List.append_assoc]
    rfl
  laid := divided.laid.append noRules (by
    rw [Nat.zero_add, ← divided.text]
    exact laid_styleParts _)
  spans usage member := by
    rw [List.filterMap_append] at member
    exact divided.spans usage ((List.mem_append.mp member).resolve_right List.not_mem_nil)

/-- The output where the rules are put into a new style. -/
theorem rewrites_appended (divided : Divided content stripped exchange site parts)
    (noRules : .rules ∉ parts)
    (stays : strip (Stripped.joined stripped.cuts stripped.tail ++ emptyStyle) =
      stripped.text ++ emptyStyle)
    {added : Text} (rules : ∀ behind, Settles behind added exchange.rules)
    {edits : List Overwrite}
    (overwrites : Overwrites content stripped (parts.filterMap Markup.Part.usage?) edits) :
    Rewrites exchange stripped.base (parts ++ styleParts)
      (Patch.output ⟨content, edits, [], styleLead ++ added ++ styleTail⟩) := by
  have longer := divided.append_style noRules stays
  have split : parts ++ styleParts =
      (parts ++ [.kept styleLead]) ++ .rules :: [.kept styleTail] := by
    rw [List.append_assoc]
    rfl
  have place : Stripped.mapEnd { stripped with tail := stripped.tail ++ styleLead ++ styleTail }
      (Text.bytes stripped.text + Text.bytes styleLead) = Text.bytes (content ++ styleLead) := by
    obtain ⟨lead, whole, base⟩ := divided.isFrom
    have positive : 0 < Text.bytes styleLead := by decide
    have counted := Stripped.restore_end stripped.cuts stripped.tail fun reached =>
      Stripped.cutoff_lt.before (Nat.lt_of_lt_of_le (Nat.lt_add_of_pos_right positive) reached)
    rw [whole, Text.bytes_append, Text.bytes_append, base, Nat.add_assoc, ← counted]
    rfl
  have isUsages : (parts ++ styleParts).filterMap Markup.Part.usage? = parts.filterMap Markup.Part.usage? := by
    rw [List.filterMap_append]
    exact List.append_nil _
  rw [overwrites.output_appended]
  have overwrites' := (overwrites.append styleLead).append styleTail
  rw [← isUsages] at overwrites'
  rw [split] at longer overwrites' ⊢
  exact longer.rewrites_insertion (by simpa using noRules) (by simp) rules overwrites'
    (congrArg some place) (overwrites.insertion_sound styleLead added styleTail)

end Divided

end ClassHoist
