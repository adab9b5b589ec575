import ClassHoist.Proofs.Divided

/-! # What directives take and what remains

A directive goes on up to the next closing brace behind its second character, so it takes closing
braces with it exactly if one of its first two characters is one (`directives_close`). What remains
goes on with a closing brace where a directive was cut out, and none stands in the start of a
directive: where the two sides of a cut meet, no directive arises. So what remains settles to itself
(`AtDirectives.settles_kept`), and nothing is left to cut out of it (`strip_stable`).
-/

namespace ClassHoist

open Directive

namespace Directive

variable {behind text left found : Text}

/-- A directive has closing braces only directly behind the first character after its start, or as
that character. -/
theorem IsDirective.brace_mem_iff (isDirective : IsDirective found) :
    '\x7d' ∈ found ↔ '\x7d' ∈ (found.drop lead.length).take 2 := by
  obtain ⟨first, braces, run, rfl, isBrace, nonempty, isRun⟩ := isDirective
  have noBrace : '\x7d' ∉ lead := by decide
  rw [List.drop_left, List.mem_append, or_iff_right noBrace]
  cases braces with
  | nil =>
    obtain ⟨second, run, rfl⟩ := List.exists_cons_of_ne_nil nonempty
    have other : '\x7d' ∉ run := fun member => isRun _ (List.mem_cons_of_mem _ member) rfl
    simp only [List.nil_append, List.mem_cons, other, or_false, List.take_succ_cons, List.take_zero,
      List.not_mem_nil]
  | cons brace braces =>
    obtain rfl := isBrace brace List.mem_cons_self
    exact iff_of_true (List.mem_cons_of_mem _ List.mem_cons_self)
      (List.mem_cons_of_mem _ List.mem_cons_self)

/-- A closing brace at the front remains there. -/
theorem Settles.closes (settles : Settles behind text left) (closes : Closes text) :
    Closes left := by
  cases text with
  | nil =>
    rw [List.length_eq_zero_iff.mp (Nat.le_zero.mp settles.length_le)]
    exact nofun
  | cons c text =>
    obtain ⟨more, rfl⟩ := settles.exists_brace (congrArg some (closes c rfl))
    exact fun d isFirst => (Option.some.inj isFirst).symm

end Directive

namespace Stripped

/-- The offsets of the cuts in the text that is left. -/
def places : List Hit → List Nat
  | [] => []
  | cut :: cuts => cut.before.bytes :: (places cuts).map (cut.before.bytes + ·)

variable {cut : Hit} {earlier cuts : List Hit} {tail : Text} {place : Nat}

theorem le_of_mem_places (member : place ∈ places (cut :: cuts)) : cut.before.bytes ≤ place := by
  rcases List.mem_cons.mp member with rfl | later
  · exact Nat.le_refl _
  · obtain ⟨place, -, rfl⟩ := List.mem_map.mp later
    exact Nat.le_add_right _ _

theorem AtDirectives.later (atDirectives : AtDirectives (earlier ++ cuts) tail) :
    AtDirectives cuts tail := by
  induction earlier with
  | nil => exact atDirectives
  | cons first earlier ih => exact ih atDirectives.2.2.2

theorem AtDirectives.isDirective (atDirectives : AtDirectives cuts tail) (member : cut ∈ cuts) :
    IsDirective cut.found := by
  obtain ⟨earlier, later, rfl⟩ := List.append_of_mem member
  exact atDirectives.later.2.1

/-- A directive that follows another does not follow it directly. -/
theorem AtDirectives.before_ne_nil (atDirectives : AtDirectives (cut :: cuts) tail)
    (closes : Closes (joined (cut :: cuts) tail)) : cut.before ≠ [] := by
  intro none
  obtain ⟨-, isDirective, -⟩ := atDirectives
  obtain ⟨more, isFound⟩ := isDirective.exists_cons
  have starts := closes '@' (by rw [joined_cons, none, isFound]; rfl)
  exact absurd starts (by decide)

theorem AtDirectives.pairwise_places (atDirectives : AtDirectives cuts tail) :
    (places cuts).Pairwise (· < ·) := by
  induction cuts with
  | nil => exact .nil
  | cons first cuts ih =>
    obtain ⟨-, -, closes, later⟩ := atDirectives
    refine .cons (fun place member => ?_)
      (List.pairwise_map.mpr ((ih later).imp fun less => Nat.add_lt_add_left less _))
    obtain ⟨place, inLater, rfl⟩ := List.mem_map.mp member
    cases cuts with
    | nil => cases inLater
    | cons next cuts =>
      have positive := Text.bytes_pos (later.before_ne_nil closes)
      have reached := le_of_mem_places inLater
      omega

/-- What remains settles to itself: no directive starts at a cut. -/
theorem AtDirectives.settles_kept (atDirectives : AtDirectives cuts tail) :
    Settles [] (kept cuts tail) (kept cuts tail) := by
  induction cuts with
  | nil => exact atDirectives
  | cons first cuts ih =>
    obtain ⟨settles, isDirective, closes, later⟩ := atDirectives
    rw [kept_cons]
    refine .append ?_ (ih later)
    rw [List.append_nil]
    exact settles.of_closes isDirective (later.settles.closes closes)

end Stripped

namespace Directive

theorem strip_eq_kept (text : Text) :
    strip text = Stripped.kept (pattern.hits text).1 (pattern.hits text).2 := by
  simp only [strip, Pattern.replaceAll, List.append_nil, Stripped.kept]

/-- **Where directives end.** What is cut out, of a text or of a document, are the directives found
in it. Each ends in front of a closing brace or at the end of the text, and takes closing braces with
it exactly if one of the first two characters behind its start is one. -/
theorem directives_close (text : Text) :
    let cuts := (pattern.hits text).1
    let tail := (pattern.hits text).2
    text = Stripped.joined cuts tail ∧ strip text = Stripped.kept cuts tail ∧
      (∀ before, Stripped.ofDocument (before ++ text) (Text.bytes before) =
        ⟨Text.bytes before, cuts, tail⟩) ∧
      ∀ earlier cut later, cuts = earlier ++ cut :: later →
        IsDirective cut.found ∧ Closes (Stripped.joined later tail) ∧
          ('\x7d' ∈ cut.found ↔ '\x7d' ∈ (cut.found.drop lead.length).take 2) := by
  intro cuts tail
  refine ⟨(pattern.hits_join text).symm, strip_eq_kept text,
    fun before => Stripped.ofDocument_append before text, fun earlier cut later split => ?_⟩
  have atDirectives : Stripped.AtDirectives cuts tail := Stripped.atDirectives_hits text
  rw [split] at atDirectives
  obtain ⟨-, isDirective, closes, -⟩ := atDirectives.later
  exact ⟨isDirective, closes, isDirective.brace_mem_iff⟩

/-- Two rules, the first with a directive. -/
def directiveRules : Text := ".a\x7b@apply p-2; \x7d.b\x7b\x7d".toList

/-- A directive with two characters or more ends in front of the brace of its rule. -/
theorem directives_close_rules :
    let cut : Hit := ⟨".a\x7b".toList, "@apply p-2; ".toList⟩
    (pattern.hits directiveRules).1 = [] ++ cut :: [] ∧
      Closes (Stripped.joined [] (pattern.hits directiveRules).2) ∧ '\x7d' ∉ cut.found := by
  intro cut
  have isHits : pattern.hits directiveRules = ([cut], "\x7d.b\x7b\x7d".toList) := by
    unfold directiveRules
    cbv
  have isCut : (pattern.hits directiveRules).1 = [] ++ cut :: [] := by
    rw [isHits]
    rfl
  obtain ⟨-, closes, takes⟩ := (directives_close directiveRules).2.2.2 [] cut [] isCut
  exact ⟨isCut, closes, takes.not.mpr (by decide)⟩

/-- A style with a directive of one character. -/
def oneLetterStyle : Text := "<style>.a\x7b@apply x\x7d</style><B class=\"c\"/>".toList

/-- A directive of one character takes the brace of its rule with it, and all that follows up to the
next one. -/
theorem cut_oneLetterStyle :
    (∃ cut ∈ (Stripped.ofDocument oneLetterStyle 0).cuts,
      '\x7d' ∈ cut.found ∧ "</style>".toList <:+: cut.found) ∧
      strip oneLetterStyle = "<style>.a\x7b".toList := by
  have isHits : pattern.hits oneLetterStyle =
      ([⟨"<style>.a\x7b".toList, "@apply x\x7d</style><B class=\"c\"/>".toList⟩], []) := by
    unfold oneLetterStyle
    cbv
  have isCut := Stripped.ofDocument_append [] oneLetterStyle
  change Stripped.ofDocument oneLetterStyle 0 = _ at isCut
  rw [isCut, strip_eq_kept, isHits]
  refine ⟨⟨_, List.mem_singleton_self _, by decide, ?_⟩, by rfl⟩
  exact ⟨"@apply x\x7d".toList, "<B class=\"c\"/>".toList, by rfl⟩

/-- **Nothing is left to cut out.** Cutting out directives twice is cutting them out once, and where
the start of one remains, no more than one character and closing braces follow it up to the end. What
is read of a document is what remains of it, with the cuts in order. -/
theorem strip_stable (text : Text) :
    strip (strip text) = strip text ∧
      (∀ before after, strip text = before ++ (lead ++ after) →
        after = [] ∨ ∃ first braces, after = first :: braces ∧ ∀ c ∈ braces, c = '\x7d') ∧
      ∀ content start before, Text.splitAt? start content = some (before, text) →
        let stripped := Stripped.ofDocument content start
        stripped.text = strip text ∧ (Stripped.places stripped.cuts).Pairwise (· < ·) := by
  have settles : Settles [] (strip text) (strip text) := by
    rw [strip_eq_kept]
    exact (Stripped.atDirectives_hits text).settles_kept
  refine ⟨?_, fun before after split => ?_, fun content start before split => ?_⟩
  · have again := settles.strip_append
    have none : strip [] = [] := Pattern.replaceAll_nil _ _
    rwa [List.append_nil, none, List.append_nil] at again
  · rw [split] at settles
    obtain ⟨-, starts⟩ := settles.of_append
    have unmatched := (starts.unmatched_of_cons rfl rfl).1
    rw [List.append_nil] at unmatched
    exact eq_of_read_eq_none unmatched
  · obtain ⟨rfl, rfl⟩ := Text.splitAt?_eq_some_iff.mp split
    exact ⟨Stripped.text_ofDocument_append before text,
      (Stripped.atDirectives_hits _).pairwise_places⟩

/-- A text with a directive inside the start of one, and the start of one at its end. -/
def seamText : Text := "@app@apply xy\x7dly @apply w\x7d\x7d".toList

/-- Neither the start of a directive that a cut leaves unfinished nor one at the end is cut out. -/
theorem strip_stable_seam :
    strip seamText = "@app\x7dly ".toList ++ (lead ++ ['w', '\x7d', '\x7d']) ∧
      (∃ first braces, ['w', '\x7d', '\x7d'] = first :: braces ∧ ∀ c ∈ braces, c = '\x7d') ∧
      Text.splitAt? 2 ('é' :: seamText) = some (['é'], seamText) ∧
      (Stripped.ofDocument ('é' :: seamText) 2).text = strip seamText ∧
      (Stripped.places (Stripped.ofDocument ('é' :: seamText) 2).cuts).Pairwise (· < ·) := by
  have isLeft : strip seamText = "@app\x7dly ".toList ++ (lead ++ ['w', '\x7d', '\x7d']) := by
    have isHits : pattern.hits seamText =
        ([⟨"@app".toList, "@apply xy".toList⟩], "\x7dly @apply w\x7d\x7d".toList) := by
      unfold seamText
      cbv
    rw [strip_eq_kept, isHits]
    rfl
  have isPart : Text.splitAt? 2 ('é' :: seamText) = some (['é'], seamText) :=
    Text.splitAt?_append ['é'] seamText
  obtain ⟨-, ends, parts⟩ := strip_stable seamText
  refine ⟨isLeft, ?_, isPart, parts _ _ _ isPart⟩
  exact (ends _ _ isLeft).resolve_left (List.cons_ne_nil _ _)

end Directive

end ClassHoist
