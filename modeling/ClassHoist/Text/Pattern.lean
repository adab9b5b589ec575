import ClassHoist.Text.Basic

/-! # Patterns and their leftmost matches

A pattern reads a nonempty match off the front of a text. Searching finds the leftmost place
where it reads one, and `Pattern.hits` cuts a text at its successive matches, which never
overlap.
-/

namespace ClassHoist

/-- A reader of a nonempty match at the front of a text. The match and what follows it make up the
text. -/
structure Pattern where
  read : Text → Option (Text × Text)
  read_append : ∀ {text found rest : Text}, read text = some (found, rest) → found ++ rest = text
  read_ne_nil : ∀ {text found rest : Text}, read text = some (found, rest) → found ≠ []

namespace Text

/-- What follows `lead` in a text that starts with it. -/
def dropLead? : (lead text : Text) → Option Text
  | [], text => some text
  | _ :: _, [] => none
  | a :: lead, b :: text => if a = b then dropLead? lead text else none

/-- Dropping a lead succeeds exactly when the text begins with it, and leaves what follows it. -/
theorem dropLead?_eq_some {lead text rest : Text} :
    dropLead? lead text = some rest ↔ text = lead ++ rest := by
  induction lead generalizing text with
  | nil => simp [dropLead?, eq_comm]
  | cons a lead ih =>
    cases text with
    | nil => simp [dropLead?]
    | cons b text =>
      by_cases same : a = b
      · simp [dropLead?, same, ih]
      · simp [dropLead?, same, Ne.symm same]

/-- The text starts with `lead`. -/
def startsWith (lead text : Text) : Bool :=
  (dropLead? lead text).isSome

/-- The text before the first place at which `stop` holds of all that follows, and what follows
there. -/
def spanUntil (stop : Text → Bool) : Text → Text × Text
  | [] => ([], [])
  | c :: rest =>
    if stop (c :: rest) then ([], c :: rest)
    else (c :: (spanUntil stop rest).1, (spanUntil stop rest).2)

/-- The two halves of a span put together are the text. -/
theorem spanUntil_append (stop : Text → Bool) (text : Text) :
    (spanUntil stop text).1 ++ (spanUntil stop text).2 = text := by
  induction text with
  | nil => rfl
  | cons c rest ih =>
    unfold spanUntil
    split
    · rfl
    · simp [ih]

/-- What a span leaves is no longer than the text. -/
theorem length_spanUntil_le (stop : Text → Bool) (text : Text) :
    (spanUntil stop text).2.length ≤ text.length := by
  have joined := congrArg List.length (spanUntil_append stop text)
  rw [List.length_append] at joined
  omega

/-- The test holds of all that follows some character's start. -/
def somewhere (test : Text → Bool) (text : Text) : Bool :=
  !(spanUntil test text).2.isEmpty

/-- The nonempty `part` stands somewhere in the text. -/
def holds (part text : Text) : Bool :=
  somewhere (startsWith part) text

/-- The parts of a text between the separators, of which there is one more than separators. -/
def splitOn (separator : Char) : Text → List Text
  | [] => [[]]
  | c :: rest =>
    if c = separator then [] :: splitOn separator rest
    else
      match splitOn separator rest with
      | [] => [[c]]
      | head :: more => (c :: head) :: more

end Text

/-- The text between the previous match and a match, and the match. -/
structure Hit where
  before : Text
  found : Text
  deriving DecidableEq, Repr

namespace Pattern

/-- The pattern that matches exactly one nonempty text. -/
def literal (text : Text) (nonempty : text ≠ []) : Pattern where
  read input := (Text.dropLead? text input).map fun rest => (text, rest)
  read_append := by
    intro input found rest matched
    obtain ⟨tail, split, same⟩ := Option.map_eq_some_iff.mp matched
    obtain ⟨rfl, rfl⟩ := Prod.mk.inj same
    exact (Text.dropLead?_eq_some.mp split).symm
  read_ne_nil := by
    intro input found rest matched
    obtain ⟨tail, split, same⟩ := Option.map_eq_some_iff.mp matched
    obtain ⟨rfl, rfl⟩ := Prod.mk.inj same
    exact nonempty

/-- The leftmost match: the text before it, the match, and the text after it. -/
def find? (pattern : Pattern) : Text → Option (Text × Text × Text)
  | [] => none
  | c :: rest =>
    match pattern.read (c :: rest) with
    | some (found, after) => some ([], found, after)
    | none => (find? pattern rest).map fun (before, found, after) => (c :: before, found, after)

/-- The pattern matches somewhere in the text. -/
def occursIn (pattern : Pattern) (text : Text) : Bool :=
  (pattern.find? text).isSome

/-- A leftmost match cuts the text into three parts, the middle one nonempty. -/
theorem find?_eq_some {pattern : Pattern} {text before found after : Text}
    (located : pattern.find? text = some (before, found, after)) :
    before ++ found ++ after = text ∧ found ≠ [] := by
  induction text generalizing before with
  | nil => simp [find?] at located
  | cons c rest ih =>
    simp only [find?] at located
    split at located
    case h_1 _ _ matched =>
      simp only [Option.some.injEq, Prod.mk.injEq] at located
      obtain ⟨rfl, rfl, rfl⟩ := located
      exact ⟨by simpa using pattern.read_append matched, pattern.read_ne_nil matched⟩
    case h_2 =>
      obtain ⟨⟨lead, inner, tail⟩, deeper, same⟩ := Option.map_eq_some_iff.mp located
      simp only [Prod.mk.injEq] at same
      obtain ⟨rfl, rfl, rfl⟩ := same
      obtain ⟨joined, nonempty⟩ := ih deeper
      exact ⟨by simpa using joined, nonempty⟩

/-- Behind a match there is less text than before: every match takes at least one character. -/
theorem length_after_lt {pattern : Pattern} {text before found after : Text}
    (located : pattern.find? text = some (before, found, after)) :
    after.length < text.length := by
  obtain ⟨rfl, nonempty⟩ := find?_eq_some located
  have := List.length_pos_iff.mpr nonempty
  simp
  omega

/-- The text cut at its successive leftmost matches, and the text after the last one. -/
def hits (pattern : Pattern) (text : Text) : List Hit × Text :=
  match located : pattern.find? text with
  | none => ([], text)
  | some (before, found, after) =>
    have : after.length < text.length := length_after_lt located
    let (more, tail) := hits pattern after
    (⟨before, found⟩ :: more, tail)
termination_by text.length

/-- The texts of the successive matches. -/
def matchesIn (pattern : Pattern) (text : Text) : List Text :=
  (pattern.hits text).1.map Hit.found

/-- The text with each match replaced. -/
def replaceAll (pattern : Pattern) (replacement : Text) (text : Text) : Text :=
  let (matched, tail) := pattern.hits text
  matched.flatMap (fun hit => hit.before ++ replacement) ++ tail

/-- The text with the first match replaced. -/
def replaceFirst (pattern : Pattern) (replacement : Text) (text : Text) : Text :=
  match pattern.find? text with
  | none => text
  | some (before, _, after) => before ++ replacement ++ after

/-- Cutting a text at its matches loses nothing. -/
theorem hits_join (pattern : Pattern) (text : Text) :
    (pattern.hits text).1.flatMap (fun hit => hit.before ++ hit.found)
      ++ (pattern.hits text).2 = text := by
  fun_induction hits pattern text with
  | case1 => simp
  | case2 text before found after located _ more tail same ih =>
    rw [same] at ih
    simp only [List.flatMap_cons, List.append_assoc] at ih ⊢
    rw [ih, ← List.append_assoc, (find?_eq_some located).1]

end Pattern

end ClassHoist
