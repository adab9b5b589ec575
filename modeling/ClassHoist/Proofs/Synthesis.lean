import ClassHoist.Hoist
import ClassHoist.Proofs.ByteOffsets

/-! # How a content is processed

A content that is processed is left alone, or else read as a document in which the classes handed to
components are replaced (`Scans`); the rules made of the result are put into it, if there are any
(`Renders`), and the whole is renamed (`cases_of_hoist`).
-/

namespace ClassHoist

open Markup

/-- The text that is edited is left as it is by no edit. -/
theorem Patch.output_ofSource (source : Text) : (Patch.ofSource source).output = source := by
  have alone : source = [] ++ (source ++ []) := (List.append_nil source).symm
  have whole : source.slice 0 source.bytes = source :=
    Text.slice_of_eq alone rfl (Nat.zero_add _).symm
  have pieces : (Patch.ofSource source).pieces = [.copied 0 (source.slice 0 source.bytes),
      .inserted []] := rfl
  rw [Patch.output, pieces, whole]
  exact List.append_nil source

/-- The readable part of a content is read as a document without its directives, and the classes
handed to components in it are replaced. -/
structure Scans (content : Text) (stripped : Stripped) (document : Document) (patch : Patch) :
    Prop where
  begins : ∃ start, (ReadableRange.ofContent content).start? = some start ∧
    stripped = Stripped.ofDocument content start
  read : read? stripped.text = .ok document
  replaced : renameGroups stripped document.usages (Patch.ofSource content) = .ok patch

/-- The rules that are made of a document are put into it, if there are any. -/
def Renders (options : Options) (stripped : Stripped) (document : Document)
    (patch placed : Patch) : Prop :=
  let rules := documentRules options document.usages patch.output
  (rules = [] ∧ placed = patch) ∨ (rules ≠ [] ∧ ∃ site,
    patch.placeRules stripped (document.style.map (·.contentSpan.start))
      (GlobalRule.renderAll rules) = .ok (site, placed))

variable {options : Options} {content code : Text} {file : Option String}
  {map : Option SourceMap.Encoding} {stripped : Stripped} {document : Document}
  {patch placed : Patch}

theorem hoistPatch_eq_ok_iff :
    hoistPatch options content stripped document = .ok placed ↔
      ∃ patch, renameGroups stripped document.usages (Patch.ofSource content) = .ok patch ∧
        Renders options stripped document patch placed := by
  unfold hoistPatch
  simp only [bind, Except.bind, pure, Except.pure, List.isEmpty_iff]
  cases renameGroups stripped document.usages (Patch.ofSource content) with
  | error refusal => exact iff_of_false nofun fun ⟨_, impossible, _⟩ => nomatch impossible
  | ok patch =>
    simp only [Except.ok.injEq, exists_eq_left', Renders]
    by_cases none : documentRules options document.usages patch.output = []
    · rw [if_pos none, Except.ok.injEq, eq_comm]
      exact ⟨fun same => .inl ⟨none, same⟩, fun either => either.elim (·.2) (absurd none ·.1)⟩
    · rw [if_neg none]
      cases patch.placeRules stripped (document.style.map (·.contentSpan.start))
          (GlobalRule.renderAll (documentRules options document.usages patch.output)) with
      | error refusal => simp [none]
      | ok result => simp [none, Prod.ext_iff]

/-- **What processing does.** -/
theorem cases_of_hoist (done : hoist options content file = .ok ⟨code, map⟩) :
    (code = content ∧ map = none) ∨ ∃ stripped document patch placed,
      Scans content stripped document patch ∧ Renders options stripped document patch placed ∧
        code = renameMarkers options placed.output ∧ map.isSome = true := by
  unfold hoist at done
  split at done
  case h_1 =>
    obtain ⟨rfl, rfl⟩ := Hoisted.mk.inj (Except.ok.inj done)
    exact .inl ⟨rfl, rfl⟩
  case h_2 start begins =>
    simp only at done
    split at done
    case h_1 => cases done
    case h_2 document read =>
      split at done
      case h_1 => cases done
      case h_2 placed edited =>
        obtain ⟨rfl, rfl⟩ := Hoisted.mk.inj (Except.ok.inj done)
        obtain ⟨patch, replaced, renders⟩ := hoistPatch_eq_ok_iff.mp edited
        exact .inr ⟨_, document, patch, placed, ⟨⟨start, begins, rfl⟩, read, replaced⟩, renders,
          rfl, rfl⟩

/-- A content that is scanned is processed, if the rules can be put into it. -/
theorem hoist_of_scans (scans : Scans content stripped document patch)
    (renders : Renders options stripped document patch placed) (file : Option String) :
    ∃ map, hoist options content file = .ok ⟨renameMarkers options placed.output, some map⟩ := by
  obtain ⟨⟨start, begins, rfl⟩, read, replaced⟩ := scans
  have edited := hoistPatch_eq_ok_iff.mpr ⟨patch, replaced, renders⟩
  unfold hoist
  simp only [begins, read, edited]
  exact ⟨_, rfl⟩

end ClassHoist
