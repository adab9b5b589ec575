import ClassHoist.Proofs.Renaming
import ClassHoist.Text.Blank
import Mathlib.Data.List.Forall2

/-! # A text and what renaming makes of it

Renaming keeps the length of a text and changes only colons, so it commutes with every way of
cutting a text that treats a colon and an underscore alike (`Twins`). Which colons it changes
depends on the text in front of them, and a part of a renamed text is the renaming of a part
(`Renamed.append`). No mark reaches over a bracket or a brace, so the name of a tag is renamed as if
it stood alone (`Renamed.name`).
-/

namespace ClassHoist

/-- Renaming can make the second character of the first. -/
def Twin (c d : Char) : Prop := d = c ∨ (c = ':' ∧ d = '_')

/-- Renaming can make the second text of the first, as far as single characters go. -/
def Twins (text out : Text) : Prop := List.Forall₂ Twin text out

/-- The second text is what renaming makes of the first behind some other text. -/
def Renamed (options : Options) (text out : Text) : Prop :=
  ∃ seen, underscored options.names seen text = out

variable {c d : Char} {text out first second : Text} {options : Options} {test : Char → Bool}

/-- A test that treats a colon and an underscore alike. -/
def Steady (test : Char → Bool) : Prop := test ':' = test '_'

/-- A test that treats a colon and an underscore alike does not tell twins apart. -/
theorem Twin.test_eq (steady : Steady test) (twin : Twin c d) : test d = test c := by
  rcases twin with rfl | ⟨rfl, rfl⟩
  · rfl
  · exact steady.symm

/-- The twin of any other character than a colon is that character. -/
theorem Twin.eq_of_ne_colon (twin : Twin c d) (notColon : c ≠ ':') : d = c :=
  twin.resolve_right fun both => notColon both.1

/-- Twins are equal to any other character than these two, or neither is. -/
theorem Twin.eq_iff {e : Char} (twin : Twin c d) (notColon : e ≠ ':') (notUnderscore : e ≠ '_') :
    d = e ↔ c = e := by
  rcases twin with rfl | ⟨rfl, rfl⟩
  · exact Iff.rfl
  · exact ⟨fun same => absurd same.symm notUnderscore, fun same => absurd same.symm notColon⟩

/-- White space is no colon. -/
theorem no_colon_of_blank (blank : ∀ c ∈ text, Text.isSeparator c = true) : ':' ∉ text :=
  fun member => nomatch blank ':' member

namespace Twins

/-- Every text is a twin of itself. -/
theorem refl (text : Text) : Twins text text := List.forall₂_same.mpr fun _ _ => .inl rfl

/-- A part of a renamed text is the renaming of a part. -/
theorem append (twins : Twins (first ++ second) out) :
    ∃ front back, out = front ++ back ∧ Twins first front ∧ Twins second back := by
  induction first generalizing out with
  | nil => exact ⟨[], out, rfl, .nil, twins⟩
  | cons c first ih =>
    cases twins with
    | cons twin twins =>
      obtain ⟨front, back, rfl, left, right⟩ := ih twins
      exact ⟨_ :: front, back, rfl, .cons twin left, right⟩

/-- Twins begin with runs that are twins. -/
theorem takeWhile (steady : Steady test) (twins : Twins text out) :
    Twins (text.takeWhile test) (out.takeWhile test) := by
  induction twins with
  | nil => exact .nil
  | cons twin _ ih =>
    rw [List.takeWhile_cons, List.takeWhile_cons, twin.test_eq steady]
    split
    · exact .cons twin ih
    · exact .nil

/-- Behind runs at their start, twins are left. -/
theorem dropWhile (steady : Steady test) (twins : Twins text out) :
    Twins (text.dropWhile test) (out.dropWhile test) := by
  induction twins with
  | nil => exact .nil
  | cons twin rest ih =>
    rw [List.dropWhile_cons, List.dropWhile_cons, twin.test_eq steady]
    split
    · exact ih
    · exact .cons twin rest

/-- Twins are trimmed to twins. -/
theorem trim (twins : Twins text out) : Twins (Text.trim text) (Text.trim out) := by
  have front : Twins (Text.trimLeft text) (Text.trimLeft out) := twins.dropWhile rfl
  have back : Twins (Text.trimLeft text).reverse (Text.trimLeft out).reverse :=
    List.forall₂_reverse_iff.mpr front
  exact List.forall₂_reverse_iff.mpr (back.dropWhile rfl)

/-- What holds of every character of a text holds of every character of its renaming. -/
theorem forall_mem {holds : Char → Prop} (twins : Twins text out)
    (kept : ∀ c ∈ text, ∀ d, Twin c d → holds d) : ∀ d ∈ out, holds d := by
  induction twins with
  | nil => intro d member; cases member
  | cons twin rest ih =>
    intro d member
    rcases List.mem_cons.mp member with rfl | later
    · exact kept _ List.mem_cons_self _ twin
    · exact ih (fun c inRest => kept c (List.mem_cons_of_mem _ inRest)) d later

/-- Twins consist of certain characters, or neither does. -/
theorem all_eq (steady : Steady test) (twins : Twins text out) : out.all test = text.all test := by
  induction twins with
  | nil => rfl
  | cons twin rest ih => rw [List.all_cons, List.all_cons, twin.test_eq steady, ih]

/-- A text without colons is the renaming of itself only. -/
theorem eq_of_no_colon (twins : Twins text out) (noColon : ':' ∉ text) : out = text := by
  induction twins with
  | nil => rfl
  | cons twin rest ih =>
    rw [twin.eq_of_ne_colon fun same => noColon (same ▸ List.mem_cons_self),
      ih fun later => noColon (List.mem_cons_of_mem _ later)]

/-- A text of separators is the renaming of itself only. -/
theorem eq_of_blank (blank : ∀ c ∈ text, Text.isSeparator c = true) (twins : Twins text out) :
    out = text := twins.eq_of_no_colon (no_colon_of_blank blank)

/-- Renaming keeps what is in front of the first colon. -/
theorem append_left (noColon : ':' ∉ first) (twins : Twins (first ++ second) out) :
    ∃ back, out = first ++ back ∧ Twins second back := by
  obtain ⟨front, back, rfl, left, right⟩ := twins.append
  exact ⟨back, by rw [left.eq_of_no_colon noColon], right⟩

/-- Renaming keeps what is behind the last colon. -/
theorem append_right (noColon : ':' ∉ second) (twins : Twins (first ++ second) out) :
    ∃ front, out = front ++ second ∧ Twins first front := by
  obtain ⟨front, back, rfl, left, right⟩ := twins.append
  exact ⟨front, by rw [right.eq_of_no_colon noColon], left⟩

/-- Renaming changes a construct only between the signs that open and close it. -/
theorem enclosed {blanks opening inner closing : Text}
    (blank : ∀ c ∈ blanks, Text.isSeparator c = true) (noColon : ':' ∉ opening)
    (noColon' : ':' ∉ closing) (twins : Twins (blanks ++ (opening ++ (inner ++ closing))) out) :
    ∃ inner', out = blanks ++ (opening ++ (inner' ++ closing)) ∧ Twins inner inner' := by
  obtain ⟨out₁, rfl, twins₁⟩ := twins.append_left (no_colon_of_blank blank)
  obtain ⟨out₂, rfl, twins₂⟩ := twins₁.append_left noColon
  obtain ⟨inner', rfl, inners⟩ := twins₂.append_right noColon'
  exact ⟨inner', rfl, inners⟩

/-- A text whose twin is empty is empty. -/
theorem eq_nil_iff (twins : Twins text out) : out = [] ↔ text = [] := by
  cases twins with
  | nil => exact Iff.rfl
  | cons => exact ⟨nofun, nofun⟩

/-- A text without colons and underscores is the renaming of itself only. -/
theorem eq_iff {word : Text} (noColon : ':' ∉ word) (noUnderscore : '_' ∉ word)
    (twins : Twins text out) : out = word ↔ text = word := by
  induction twins generalizing word with
  | nil => exact Iff.rfl
  | cons twin rest ih =>
    cases word with
    | nil => exact ⟨nofun, nofun⟩
    | cons e more =>
      have here := twin.eq_iff (fun same => noColon (same ▸ List.mem_cons_self))
        fun same => noUnderscore (same ▸ List.mem_cons_self)
      have later := ih (fun inMore => noColon (List.mem_cons_of_mem _ inMore))
        fun inMore => noUnderscore (List.mem_cons_of_mem _ inMore)
      rw [List.cons.injEq, List.cons.injEq, here, later]

/-- Twins begin with a lead that has no colon and no underscore, or neither does. -/
theorem dropLead? {lead : Text} (noColon : ':' ∉ lead) (noUnderscore : '_' ∉ lead)
    (twins : Twins text out) :
    Option.Rel Twins (Text.dropLead? lead text) (Text.dropLead? lead out) := by
  induction lead generalizing text out with
  | nil => exact .some twins
  | cons e lead ih =>
    cases twins with
    | nil => exact .none
    | @cons c d text out twin rest =>
      have same := twin.eq_iff (fun same => noColon (same ▸ List.mem_cons_self))
        fun same => noUnderscore (same ▸ List.mem_cons_self)
      rw [Text.dropLead?, Text.dropLead?]
      by_cases leads : e = c
      · rw [if_pos leads, if_pos (same.mpr leads.symm).symm]
        exact ih (fun inLead => noColon (List.mem_cons_of_mem _ inLead))
          (fun inLead => noUnderscore (List.mem_cons_of_mem _ inLead)) rest
      · rw [if_neg leads, if_neg fun other => leads (same.mp other.symm).symm]
        exact .none

/-- Twins end with a character that is neither colon nor underscore, or neither does. -/
theorem getLast?_eq_iff {e : Char} (notColon : e ≠ ':') (notUnderscore : e ≠ '_')
    (twins : Twins text out) : out.getLast? = some e ↔ text.getLast? = some e := by
  have back : Twins text.reverse out.reverse := List.forall₂_reverse_iff.mpr twins
  rw [← List.head?_reverse, ← List.head?_reverse]
  generalize text.reverse = last at back
  generalize out.reverse = last' at back
  cases back with
  | nil => exact Iff.rfl
  | cons twin _ =>
    rw [List.head?_cons, List.head?_cons, Option.some.injEq, Option.some.injEq]
    exact twin.eq_iff notColon notUnderscore

end Twins

namespace Renamed

/-- A renamed text is a twin. -/
theorem twins (renamed : Renamed options text out) : Twins text out := by
  obtain ⟨seen, rfl⟩ := renamed
  induction text generalizing seen with
  | nil => exact .nil
  | cons c rest ih =>
    rw [underscored]
    refine .cons ?_ (ih _)
    split
    · next both => exact .inr ⟨both.1, rfl⟩
    · exact .inl rfl

/-- Behind its first character, the rest of a renamed text is renamed. -/
theorem cons (renamed : Renamed options (c :: text) out) :
    ∃ d more, out = d :: more ∧ Twin c d ∧ Renamed options text more := by
  obtain ⟨seen, rfl⟩ := renamed
  refine ⟨_, _, rfl, ?_, _, rfl⟩
  split
  · next both => exact .inr ⟨both.1, rfl⟩
  · exact .inl rfl

/-- A part of a renamed text is the renaming of a part. -/
theorem append (renamed : Renamed options (first ++ second) out) :
    ∃ front back, out = front ++ back ∧ Renamed options first front ∧
      Renamed options second back := by
  obtain ⟨seen, rfl⟩ := renamed
  exact ⟨_, _, underscored_append _ _ _ _, ⟨_, rfl⟩, ⟨_, rfl⟩⟩

/-- Renaming leaves a text without colons alone. -/
theorem eq_of_no_colon (renamed : Renamed options text out) (noColon : ':' ∉ text) : out = text := by
  obtain ⟨seen, rfl⟩ := renamed
  exact underscored_of_no_colon _ _ noColon

/-- What follows a character that no mark holds is renamed as if it stood alone. -/
theorem behind (renamed : Renamed options (c :: text) out) (other : c.isAlpha = false)
    (notColon : c ≠ ':') : out = c :: underscored options.names [] text := by
  obtain ⟨seen, rfl⟩ := renamed
  rw [underscored, if_neg fun both => notColon both.1]
  exact congrArg (c :: ·) (underscored_append_cons (options.not_mem_names other) [] _ text)

end Renamed

end ClassHoist
