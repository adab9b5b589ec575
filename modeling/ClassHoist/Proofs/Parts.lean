import ClassHoist.Proofs.Replays
import Mathlib.Logic.Relation

/-! # The parts of a document

A document that is read without faults falls into text that stays as it is, classes handed to
components and, where the content of its style starts, a place for rules. When the parts are exchanged
and the whole is renamed, the new text is read without faults too, and what stands behind it is read
as at top level (`Draft.run_replays`).
-/

namespace ClassHoist.Markup

variable {options : Options} {exchange : Exchange}

/-- A part of a document: text that stays as it is, classes handed to a component, or the place for
rules. -/
inductive Part where
  | kept (text : Text)
  | classes (usage : Usage)
  | rules

namespace Part

/-- The text of a part. -/
def old : Part → Text
  | kept text => text
  | classes usage => usage.group
  | rules => []

/-- The text that a part is exchanged for. -/
def new (exchange : Exchange) : Part → Text
  | kept text => text
  | classes usage => exchange.name usage
  | rules => exchange.rules

/-- The classes in a part. -/
def usage? : Part → Option Usage
  | classes usage => some usage
  | kept _ | rules => none

end Part

/-- The text of several parts. -/
def oldText (parts : List Part) : Text := parts.flatMap Part.old

/-- The text that several parts are exchanged for. -/
def newText (exchange : Exchange) (parts : List Part) : Text := parts.flatMap (Part.new exchange)

/-- The parts lie in a document from an offset on, behind some text: classes follow the start of a
value and rules a tag, and markup follows both. -/
def Laid (site : Option Nat) : (offset : Nat) → (before : Text) → List Part → Prop
  | _, _, [] => True
  | offset, before, .kept text :: parts => Laid site (offset + Text.bytes text) (before ++ text) parts
  | offset, before, .classes usage :: parts =>
    usage.span.start = offset ∧ Slot before (oldText parts) ∧ Busy (oldText parts) ∧
      Laid site (offset + Text.bytes usage.group) [] parts
  | offset, before, .rules :: parts =>
    site = some offset ∧ ['>'] <:+ before ∧ Busy (oldText parts) ∧ Laid site offset [] parts

theorem Laid.append_left {site : Option Nat} {offset : Nat} {before : Text} {parts : List Part}
    (lead : Text) (laid : Laid site offset before parts) :
    Laid site offset (lead ++ before) parts := by
  induction parts generalizing offset before with
  | nil => trivial
  | cons part parts ih =>
    cases part with
    | kept text =>
      show Laid site _ (lead ++ before ++ text) parts
      rw [List.append_assoc]
      exact ih laid
    | classes usage =>
      obtain ⟨start, slot, busy, laid⟩ := laid
      exact ⟨start, slot.append lead, busy, laid⟩
    | rules =>
      obtain ⟨start, closes, busy, laid⟩ := laid
      exact ⟨start, closes.trans (List.suffix_append _ _), busy, laid⟩

theorem Laid.kept {site : Option Nat} {offset stop : Nat} {text : Text} {parts : List Part}
    (laid : Laid site stop [] parts) (isStop : stop = offset + Text.bytes text) (before : Text) :
    Laid site offset before (.kept text :: parts) := by
  have moved := laid.append_left (before ++ text)
  rw [List.append_nil, isStop] at moved
  exact moved

/-- An open element or block that looks like another. -/
def Outline.opened : Outline → Opened
  | .element name => .element ⟨⟨0, name, [], false⟩, .element name false, []⟩
  | .component name => .element ⟨⟨0, name, [], false⟩, .component name false, []⟩
  | .block kind => .block ⟨kind, ⟨⟨0, 0⟩, ⟨0, 0⟩, ""⟩, .body, 0, []⟩

theorem Outline.outline_opened (outline : Outline) : outline.opened.outline = outline := by
  cases outline <;> rfl

namespace Draft

variable {draft : Draft}

/-- There are drafts of the renamed document for every draft and every text to come. -/
theorem exists_alike (options : Options) (draft : Draft) (rest : Text) :
    ∃ other : Draft, other.cursor.rest = rest ∧ Alike options draft other := by
  refine ⟨{ draft with
    cursor := ⟨0, rest⟩
    opened := (draft.opened.map Opened.outline).map fun outline => (outline.renamed options).opened
    faults := [] }, rfl, rfl, ?_⟩
  simp only [summary, Summary.renamed, List.map_map]
  congr 2
  funext opened
  exact Outline.outline_opened _

/-- What is open at the end of the source is a fault. -/
theorem run_faults_ne_nil (isOpen : draft.opened ≠ []) (ended : draft.cursor.rest = []) :
    draft.run.faults ≠ [] := by
  have starts : StartsConstruct draft.cursor.rest := ended ▸ startsConstruct_nil
  have kind := Cursor.kind_of_ended ended
  have faulty {next : Draft} (stepped : draft.step = some next) (wrong : next.faults ≠ []) :
      draft.run.faults ≠ [] := by
    intro clean
    rw [run_of_step stepped] at clean
    exact wrong (List.suffix_nil.mp (clean ▸ run_faults next))
  cases same : draft.opened with
  | nil => exact absurd same isOpen
  | cons innermost outer =>
    cases innermost with
    | element entry =>
      exact faulty (step_of_close starts same (.inl kind)) (closeElement_faults_ne_nil kind)
    | block entry =>
      exact faulty (step_of_abandon starts same (.inl kind)) abandonBlock_faults_ne_nil

/-- Markup follows while something is open, or there will be faults. -/
theorem exists_mark_of_opened (isOpen : draft.opened ≠ []) (clean : draft.run.faults = []) :
    ∃ c ∈ draft.cursor.rest, c = '<' ∨ c = '\x7b' := by
  by_contra none
  have isText : ∀ c ∈ draft.cursor.rest, isTextChar c = true := fun c member =>
    Bool.of_not_eq_false fun noText => none ⟨c, member, isTextChar_eq_false noText⟩
  by_cases ended : draft.cursor.rest = []
  · exact run_faults_ne_nil isOpen ended clean
  · rw [run_of_step (step_of_text isText ended startsConstruct_nil (List.append_nil _).symm)] at clean
    refine run_faults_ne_nil (fun closed => isOpen ?_) ?_ clean
    · have counted := length_opened_add (draft.moveTo (draft.cursor.past draft.cursor.rest []))
        (.text ⟨draft.cursor.offset, (draft.cursor.past draft.cursor.rest []).offset⟩
          (String.ofList draft.cursor.rest))
      exact List.length_eq_zero_iff.mp (counted.symm.trans (congrArg List.length closed))
    · rw [readText, cursor_add, cursor_moveTo]
      rfl

/-- Where rules go: nowhere, if there are none or no style is read any more, or to one place. -/
def RulesIn (exchange : Exchange) (draft : Draft) (parts : List Part) : Prop :=
  (.rules ∉ parts ∧ (exchange.rules = [] ∨ draft.run.style = draft.style)) ∨
    draft.style = none ∧ ∃ first second, parts = first ++ .rules :: second ∧
      .rules ∉ first ∧ .rules ∉ second

/-- The parts of what is still to be read, for a draft that will have no faults. -/
structure Parted (options : Options) (exchange : Exchange) (draft : Draft) (parts : List Part) :
    Prop where
  text : draft.cursor.rest = oldText parts
  usages : draft.run.usages = draft.usages ++ parts.filterMap Part.usage?
  laid : Laid (draft.run.style.map (·.contentSpan.start)) draft.cursor.offset [] parts
  rules : RulesIn exchange draft parts
  replay : ∀ other out tail, Alike options draft other → other.cursor.rest = out ++ tail →
    Renamed options (newText exchange parts) out → StartsConstruct tail →
      Ahead options draft.cursor.rest other.cursor.rest ∧
        ∃ last, other.run = last.run ∧ last.cursor.rest = tail ∧ Alike options draft.run last

theorem parted_nil (ended : draft.step = none) : Parted options exchange draft [] where
  text := rest_of_step_eq_none ended
  usages := by
    rw [run_of_step_eq_none ended]
    exact (List.append_nil _).symm
  laid := trivial
  rules := .inl ⟨List.not_mem_nil, .inr (congrArg Draft.style (run_of_step_eq_none ended))⟩
  replay other out tail alike split renamed starts := by
    obtain ⟨seen, rfl⟩ := renamed
    rw [rest_of_step_eq_none ended, run_of_step_eq_none ended]
    refine ⟨?_, other, rfl, split, alike⟩
    rw [split]
    exact ⟨fun _ => starts, fun nonempty => absurd rfl nonempty, fun nonempty => absurd rfl nonempty⟩

/-- What the second draft is replayed by goes on with what the first step is replayed by. -/
theorem Replay.parted {next : Draft} {taken edited : Text} {parts : List Part}
    (stepped : draft.step = some next) (replay : Replay options draft next taken edited)
    (later : Parted options exchange next parts) :
    ∀ other out tail, Alike options draft other → other.cursor.rest = out ++ tail →
      Renamed options (edited ++ newText exchange parts) out → StartsConstruct tail →
        Ahead options draft.cursor.rest other.cursor.rest ∧
          ∃ last, other.run = last.run ∧ last.cursor.rest = tail ∧ Alike options draft.run last := by
  intro other out tail alike split renamed starts
  obtain ⟨out₁, out₂, rfl, renamed₁, renamed₂⟩ := renamed.append
  rw [List.append_assoc] at split
  obtain ⟨dummy, dummyRest, dummyAlike⟩ := exists_alike options next (out₂ ++ tail)
  have ahead := (later.replay dummy out₂ tail dummyAlike dummyRest renamed₂ starts).1
  rw [dummyRest] at ahead
  obtain ⟨ahead', next', stepped', isRest, alike'⟩ :=
    replay.replay other out₁ (out₂ ++ tail) alike split renamed₁ ahead
  obtain ⟨-, last, same, ends, alikeLast⟩ :=
    later.replay next' out₂ tail alike' isRest renamed₂ starts
  rw [run_of_step stepped]
  exact ⟨ahead', last, (run_of_step stepped').trans same, ends, alikeLast⟩

/-- Parts without a place for rules can be put in front. -/
theorem RulesIn.append {next : Draft} {parts : List Part} (rulesIn : RulesIn exchange next parts)
    (front : List Part) (stepped : draft.step = some next) (style : next.style = draft.style)
    (noRules : Part.rules ∉ front) : RulesIn exchange draft (front ++ parts) := by
  rcases rulesIn with ⟨absent, reason⟩ | ⟨first, before, after, rfl, absent⟩
  · refine .inl ⟨List.not_mem_append noRules absent, reason.imp_right fun same => ?_⟩
    rw [run_of_step stepped, same, style]
  · exact .inr ⟨style ▸ first, front ++ before, after, (List.append_assoc _ _ _).symm,
      List.not_mem_append noRules absent.1, absent.2⟩

/-- What a step reads, in front of the parts that follow it. -/
theorem Replay.exists_parted {next : Draft} {taken edited : Text} {parts : List Part}
    (stepped : draft.step = some next) (image : exchange.Image draft next taken edited)
    (replay : Replay options draft next taken edited)
    (reach : next.cursor.offset = draft.cursor.offset + Text.bytes taken)
    (keeps : ∀ style ∈ next.style, next.run.style = some style)
    (goesOn : next.opened ≠ [] → ∃ c ∈ next.cursor.rest, c = '<' ∨ c = '\x7b')
    (later : Parted options exchange next parts) :
    ∃ parts, Parted options exchange draft parts := by
  have same := run_of_step stepped
  have split := replay.split
  rw [later.text] at split
  have laid := later.laid
  rw [reach, ← same] at laid
  have absent {style : Style} (isStyle : next.style = some style) :
      Part.rules ∉ parts := by
    rcases later.rules with ⟨absent, -⟩ | ⟨none, -⟩
    · exact absent
    · rw [isStyle] at none
      cases none
  -- The step read nothing that is exchanged, classes, a style as it is, or one that takes the
  -- rules.
  rcases image with ⟨sameStyle, new, added, ⟨rfl, rfl⟩ | ⟨usage, before, after, rfl, rfl, start, rfl,
    slot, bracket, slash⟩⟩ | ⟨first, sameUsages, style, isStyle, ⟨noRules, rfl⟩ | ⟨before, after,
      rfl, closes, bracket, slash, start, rfl⟩⟩
  · refine ⟨.kept edited :: parts, split, ?_, laid.kept rfl [], ?_, replay.parted stepped later⟩
    · rw [same, later.usages, added]
      simp only [Option.toList_none, List.append_nil]
      rfl
    · exact later.rules.append [.kept edited] stepped sameStyle (by simp)
  · refine ⟨.kept before :: .classes usage :: .kept after :: parts, ?_, ?_,
      ⟨start, slot.append_right _, ?_, laid.kept ?_ []⟩, ?_, fun other out tail alike isRest => ?_⟩
    · rw [split]
      simp only [oldText, List.flatMap_cons, Part.old, List.append_assoc]
    · rw [same, later.usages, added, List.append_assoc]
      rfl
    · have inAfter : after ⊆ oldText (.kept after :: parts) := List.subset_append_left _ _
      by_cases closed : next.opened = []
      · exact ⟨'>', '/', inAfter bracket, inAfter (slash closed), rfl, rfl, by decide⟩
      · obtain ⟨c, member, isMark⟩ := goesOn closed
        rw [later.text] at member
        refine ⟨'>', c, inAfter bracket, List.mem_append_right _ member, rfl, ?_, ?_⟩
        all_goals rcases isMark with rfl | rfl <;> decide
    · simp only [Text.bytes_append, Nat.add_assoc]
    · exact later.rules.append [.kept before, .classes usage, .kept after] stepped sameStyle
        (by simp)
    · have replayed := replay.parted stepped later other out tail alike isRest
      simp only [List.append_assoc] at replayed
      exact replayed
  · refine ⟨.kept edited :: parts, split, ?_, laid.kept rfl [], ?_, replay.parted stepped later⟩
    · rw [same, later.usages, sameUsages]
      rfl
    · exact .inl ⟨by simpa using absent isStyle, .inl noRules⟩
  · refine ⟨.kept before :: .rules :: .kept after :: parts, ?_, ?_,
      ⟨?_, closes, ?_, laid.kept ?_ []⟩, ?_, fun other out tail alike isRest => ?_⟩
    · rw [split]
      simp only [oldText, List.flatMap_cons, Part.old, List.nil_append, List.append_assoc]
    · rw [same, later.usages, sameUsages]
      rfl
    · rw [same, keeps style isStyle, Option.map_some, start]
    · have inAfter : after ⊆ oldText (.kept after :: parts) := List.subset_append_left _ _
      exact ⟨'<', '/', inAfter bracket, inAfter slash, rfl, rfl, by decide⟩
    · simp only [Text.bytes_append, Nat.add_assoc]
    · exact .inr ⟨first, [.kept before], .kept after :: parts, rfl, by simp,
        by simpa using absent isStyle⟩
    · have replayed := replay.parted stepped later other out tail alike isRest
      simp only [List.append_assoc] at replayed
      exact replayed

/-- **A whole run.** -/
theorem run_replays (kept : draft.Kept) (clean : draft.run.faults = [])
    (apart : ∀ later, Relation.ReflTransGen (fun draft next : Draft => draft.step = some next)
      draft later → Apart options (· ∈ later.openNames))
    (sound : exchange.Sound draft.run.usages)
    (opened : exchange.rules ≠ [] → ∀ style ∈ draft.run.style,
      style.FollowsOpenTag draft.cursor.offset draft.cursor.rest) :
    ∃ parts, Parted options exchange draft parts := by
  fun_induction run draft with
  | case1 draft ended => exact ⟨[], parted_nil ended⟩
  | case2 draft next stepped ih =>
    have nextClean : next.faults = [] := List.suffix_nil.mp (clean ▸ run_faults next)
    have follows := step_follows stepped nextClean kept
    obtain ⟨usages, keeps⟩ := run_keeps (follows.kept kept) clean
    obtain ⟨taken, edited, image, replay⟩ := step_replays stepped nextClean kept (apart draft .refl)
      ⟨fun usage member => sound.fits usage (usages.subset member), sound.quiet, sound.ends⟩
      fun hasRules style isStyle => opened hasRules style (keeps style isStyle)
    have reach : next.cursor.offset = draft.cursor.offset + Text.bytes taken := by
      obtain ⟨taken', split, counted⟩ := follows.reach
      rwa [List.append_cancel_right (split.symm.trans replay.split)] at counted
    have openedNext (hasRules : exchange.rules ≠ []) (style : Style)
        (isStyle : style ∈ next.run.style) :
        style.FollowsOpenTag next.cursor.offset next.cursor.rest := by
      intro before after split start closes
      refine opened hasRules style isStyle (taken ++ before) after ?_ ?_
        (closes.trans (List.suffix_append _ _))
      · rw [replay.split, split, List.append_assoc]
      · rw [start, reach, Text.bytes_append, Nat.add_assoc]
    obtain ⟨parts, later⟩ := ih (follows.kept kept) clean
      (fun later comes => apart later (.head stepped comes)) sound openedNext
    exact replay.exists_parted stepped image reach keeps
      (fun isOpen => exists_mark_of_opened isOpen clean) later

end Draft

end ClassHoist.Markup
