import ClassHoist.Markup.Reader
import ClassHoist.Proofs.Tags

/-! # Renamed elements

What an element is and which tags close it depends on its name only by words that renaming leaves alone
(`ofName_renamed`, `closesSibling_renamed`), or by comparing it with other names, which renaming
does not change where it keeps them apart (`closesEnclosing_renamed`, `closesAround_renamed`).
-/

namespace ClassHoist.Markup

variable {options : Options} {name : String}

/-- A renamed name is the same up to renaming. -/
theorem renamedName_twins (options : Options) (name : String) :
    Twins name.toList (renamedName options name).toList := by
  rw [renamedName, String.toList_ofList, renameMarkers_eq]
  exact Renamed.twins (show Renamed options _ _ from ⟨[], rfl⟩)

/-- A word without colons and underscores. -/
def isPlainWord (word : String) : Bool := word.toList.all fun c => c != ':' && c != '_'

/-- In a plain word there is no colon and no underscore. -/
theorem not_mem_of_isPlainWord {word : String} (plain : isPlainWord word = true) :
    ':' ∉ word.toList ∧ '_' ∉ word.toList := by
  have chars := List.all_eq_true.mp plain
  exact ⟨fun member => absurd (chars _ member) (by decide),
    fun member => absurd (chars _ member) (by decide)⟩

/-- Renaming makes a plain word of no other name. -/
theorem renamedName_eq_iff {word : String} (plain : isPlainWord word = true)
    (options : Options) (name : String) : renamedName options name = word ↔ name = word := by
  rw [← String.toList_inj, ← String.toList_inj]
  exact (renamedName_twins options name).eq_iff (not_mem_of_isPlainWord plain).1
    (not_mem_of_isPlainWord plain).2

/-- Renaming does not change whether the content of an element is raw. -/
theorem hasRawContent_renamedName (options : Options) (name : String) :
    hasRawContent (renamedName options name) = hasRawContent name := by
  rw [Bool.eq_iff_iff]
  simp only [hasRawContent, Bool.or_eq_true, beq_iff_eq]
  rw [renamedName_eq_iff (by decide), renamedName_eq_iff (by decide)]

/-- Renaming does not change whether the content of an element is text. -/
theorem hasTextContent_renamedName (options : Options) (name : String) :
    hasTextContent (renamedName options name) = hasTextContent name := by
  rw [Bool.eq_iff_iff]
  simp only [hasTextContent, beq_iff_eq]
  exact renamedName_eq_iff (by decide) options name

/-- A list of plain words holds a name if it holds it renamed. -/
theorem contains_renamedName {words : List String} (plain : words.all isPlainWord = true)
    (options : Options) (name : String) :
    words.contains (renamedName options name) = words.contains name := by
  rw [Bool.eq_iff_iff, List.contains_iff_mem, List.contains_iff_mem]
  have same (word : String) (member : word ∈ words) :
      renamedName options name = word ↔ name = word :=
    renamedName_eq_iff (List.all_eq_true.mp plain word member) options name
  constructor
  · intro member
    rwa [← (same _ member).mp rfl] at member
  · intro member
    rwa [(same _ member).mpr rfl]

/-- Renaming does not change whether an element is closed by a sibling. -/
theorem closedBy_renamedName (options : Options) (current name : String) :
    (closedBy (renamedName options current)).contains (renamedName options name) =
      (closedBy current).contains name := by
  have word (word : String) (plain : isPlainWord word = true) :
      (renamedName options current = word) = (current = word) :=
    propext (renamedName_eq_iff plain options current)
  have same : closedBy (renamedName options current) = closedBy current := by
    simp only [closedBy, word "li" (by decide), word "dt" (by decide), word "dd" (by decide),
      word "p" (by decide), word "rt" (by decide), word "rp" (by decide),
      word "optgroup" (by decide), word "option" (by decide), word "thead" (by decide),
      word "tbody" (by decide), word "tfoot" (by decide), word "tr" (by decide),
      word "td" (by decide), word "th" (by decide)]
  rw [same]
  refine contains_renamedName ?_ options name
  unfold closedBy
  repeat' split
  all_goals decide

/-- Renaming does not change whether an element has no content. -/
theorem isVoid_renamedName (options : Options) (name : String) :
    isVoid (renamedName options name) = isVoid name := by
  have lower : Twins (name.toList.map Char.toLower) ((renamedName options name).toList.map Char.toLower) := by
    refine List.forall₂_map_left_iff.mpr (List.forall₂_map_right_iff.mpr ?_)
    refine List.Forall₂.imp (fun c d twin => ?_) (renamedName_twins options name)
    rcases twin with rfl | ⟨rfl, rfl⟩
    · exact .inl rfl
    · exact .inr ⟨rfl, rfl⟩
  have plain : voidElements.all isPlainWord = true := by decide
  unfold isVoid
  rw [Bool.eq_iff_iff, List.contains_iff_mem, List.contains_iff_mem]
  have same (word : String) (member : word ∈ voidElements) :
      String.ofList ((renamedName options name).toList.map Char.toLower) = word ↔
        String.ofList (name.toList.map Char.toLower) = word := by
    rw [← String.toList_inj, ← String.toList_inj, String.toList_ofList, String.toList_ofList]
    have chars := not_mem_of_isPlainWord (List.all_eq_true.mp plain word member)
    exact lower.eq_iff chars.1 chars.2
  constructor
  · intro member
    rwa [← (same _ member).mp rfl] at member
  · intro member
    rwa [(same _ member).mpr rfl]

/-- The words after `svelte:`. -/
def specialWords : List String :=
  ["self", "component", "element", "window", "document", "body", "head", "options", "fragment",
    "boundary"]

/-- The kind of a special element depends only on the words that there are. -/
theorem ofSuffix?_congr {suffix suffix' : String}
    (same : ∀ word ∈ specialWords, suffix' = word ↔ suffix = word) :
    SpecialElement.ofSuffix? suffix' = SpecialElement.ofSuffix? suffix := by
  unfold SpecialElement.ofSuffix?
  split
  case h_11 h₁ h₂ h₃ h₄ h₅ h₆ h₇ h₈ h₉ h₁₀ =>
    split
    case h_11 => rfl
    all_goals simp_all [specialWords]
  all_goals
    rw [(same _ (by decide)).mp rfl]
    rfl

/-- How the names of special elements start. -/
def specialLead : Text := ['s', 'v', 'e', 'l', 't', 'e', ':']

/-- Behind the start of a special name, renaming goes on as if it were not there. -/
theorem underscored_specialLead (options : Options) (text : Text) :
    underscored options.names [] (specialLead ++ text) =
      specialLead ++ underscored options.names specialLead.reverse text := by
  have same : underscored options.names [] specialLead = specialLead := by
    obtain ⟨rtl, global⟩ := options
    cases rtl <;> cases global <;> rfl
  rw [underscored_append, same, List.append_nil]

/-- A text starts with `svelte:` after renaming only if it did so before. -/
theorem exists_of_twins_append {lead text rest : Text} (noUnderscore : '_' ∉ lead)
    (twins : Twins text (lead ++ rest)) : ∃ more, text = lead ++ more := by
  induction lead generalizing text with
  | nil => exact ⟨text, rfl⟩
  | cons d lead ih =>
    cases twins with
    | cons twin twins =>
      obtain ⟨more, rfl⟩ := ih (fun member => noUnderscore (List.mem_cons_of_mem _ member)) twins
      rcases twin with rfl | ⟨-, rfl⟩
      · exact ⟨more, rfl⟩
      · exact absurd List.mem_cons_self noUnderscore

/-- A special name is one after renaming, of a suffix that is the same up to renaming. -/
theorem specialSuffix?_renamedName (options : Options) (name : String) :
    Option.Rel (fun suffix suffix' => Twins suffix.toList suffix'.toList) (specialSuffix? name)
      (specialSuffix? (renamedName options name)) := by
  have unfolded (name : String) :
      specialSuffix? name = (Text.dropLead? specialLead name.toList).map String.ofList := rfl
  rw [unfolded, unfolded, renamedName, String.toList_ofList, renameMarkers_eq]
  cases starts : Text.dropLead? specialLead name.toList with
  | some suffix =>
    rw [Text.dropLead?_eq_some.mp starts, underscored_specialLead, Text.dropLead?_eq_some.mpr rfl,
      Option.map_some, Option.map_some]
    refine .some ?_
    rw [String.toList_ofList, String.toList_ofList]
    exact Renamed.twins (show Renamed options _ _ from ⟨_, rfl⟩)
  | none =>
    cases starts' : Text.dropLead? specialLead (underscored options.names [] name.toList) with
    | none => exact .none
    | some suffix =>
      have twins : Twins name.toList (specialLead ++ suffix) := by
        rw [← Text.dropLead?_eq_some.mp starts']
        exact Renamed.twins (show Renamed options _ _ from ⟨_, rfl⟩)
      obtain ⟨more, split⟩ := exists_of_twins_append (by decide) twins
      rw [Text.dropLead?_eq_some.mpr split] at starts
      cases starts

/-- Renaming does not change which special element a name is. -/
theorem specialElement?_renamedName (options : Options) (name : String) :
    specialElement? (renamedName options name) = specialElement? name := by
  unfold specialElement?
  have related := specialSuffix?_renamedName options name
  generalize specialSuffix? name = suffix at related
  generalize specialSuffix? (renamedName options name) = suffix' at related
  cases related with
  | none => rfl
  | @some suffix suffix' twins =>
    refine ofSuffix?_congr fun word member => ?_
    rw [← String.toList_inj, ← String.toList_inj]
    have plain : specialWords.all isPlainWord = true := by decide
    have chars := not_mem_of_isPlainWord (List.all_eq_true.mp plain word member)
    exact twins.eq_iff chars.1 chars.2

/-- Renaming does not change whether a special element is unknown. -/
theorem isUnknownSpecial_renamedName (options : Options) (name : String) :
    isUnknownSpecial (renamedName options name) = isUnknownSpecial name := by
  unfold isUnknownSpecial
  rw [specialElement?_renamedName]
  have related := specialSuffix?_renamedName options name
  generalize specialSuffix? name = suffix at related
  generalize specialSuffix? (renamedName options name) = suffix' at related
  cases related <;> rfl

/-- Renaming does not change whether a name is that of a component. -/
theorem namesComponent_renamedName (options : Options) (name : String) :
    namesComponent (renamedName options name) = namesComponent name := by
  have twins := renamedName_twins options name
  have head : (renamedName options name).toList.head? = name.toList.head? := by
    rw [renamedName, String.toList_ofList, renameMarkers_eq]
    cases name.toList with
    | nil => rfl
    | cons c rest => rw [underscored_nil_cons, List.head?_cons, List.head?_cons]
  have dots : (renamedName options name).toList.contains '.' = name.toList.contains '.' := by
    have holds (text : Text) : text.contains '.' = !text.all fun c => c != '.' := by
      induction text with
      | nil => rfl
      | cons c text ih =>
        rw [List.contains_cons, List.all_cons, ih, Bool.not_and, bne, Bool.not_not, Bool.beq_comm]
    rw [holds, holds, twins.all_eq (show Steady (fun c => c != '.') from rfl)]
  unfold namesComponent
  rw [head, dots]

/-- What the closing tags and the ends of blocks to come have to match: an element of the document,
a component or special element, or a block. -/
inductive Outline where
  | element (name : String)
  | component (name : String)
  | block (kind : BlockKind)

/-- What the end of an element or block that is open has to match. -/
def Opened.outline : Opened → Outline
  | .element entry =>
    match entry.role with
    | .element .. => .element entry.tag.name
    | _ => .component entry.tag.name
  | .block entry => .block entry.kind

namespace Outline

/-- It after renaming. -/
def renamed (options : Options) : Outline → Outline
  | element name => element (renamedName options name)
  | component name => component (renamedName options name)
  | block kind => block kind

/-- It as far as closing tags are concerned. -/
def scope : Outline → Scope
  | element name => .element name
  | component name => .component name
  | block _ => .block

/-- The name of an element is one of the names. -/
def NamedIn (names : String → Prop) : Outline → Prop
  | element name | component name => names name
  | block _ => True

end Outline

/-- An outline tells how an element or block is closed. -/
theorem Opened.scope_outline (opened : Opened) : opened.outline.scope = opened.scope := by
  cases opened with
  | element entry =>
    obtain ⟨tag, role, children⟩ := entry
    cases role <;> rfl
  | block entry => rfl

/-- Renaming keeps the names apart. -/
def Apart (options : Options) (names : String → Prop) : Prop :=
  ∀ first second, names first → names second →
    renamedName options first = renamedName options second → first = second

variable {names : String → Prop} {outlines : List Outline}

/-- Names that renaming keeps apart are equal after it exactly if they are before. -/
theorem Apart.beq_eq (apart : Apart options names) {first second : String} (isFirst : names first)
    (isSecond : names second) :
    (renamedName options first == renamedName options second) = (first == second) := by
  rw [Bool.eq_iff_iff, beq_iff_eq, beq_iff_eq]
  exact ⟨apart first second isFirst isSecond, congrArg (renamedName options)⟩

/-- A closing tag closes an enclosing element after renaming exactly if it does before. -/
theorem closesEnclosing_renamed (apart : Apart options names) (isName : names name)
    (known : ∀ outline ∈ outlines, outline.NamedIn names) :
    closesEnclosing (renamedName options name)
        ((outlines.map (Outline.renamed options)).map Outline.scope) =
      closesEnclosing name (outlines.map Outline.scope) := by
  induction outlines with
  | nil => rfl
  | cons outline outlines ih =>
    obtain ⟨isKnown, outer⟩ := List.forall_mem_cons.mp known
    cases outline with
    | element other => exact congrArg₂ (· || ·) (apart.beq_eq isKnown isName) (ih outer)
    | component other => exact apart.beq_eq isKnown isName
    | block kind => rfl

/-- A sibling closes an element after renaming exactly if it does before. -/
theorem closesSibling_renamed (options : Options) (name : String) (outlines : List Outline) :
    closesSibling (renamedName options name)
        ((outlines.map (Outline.renamed options)).map Outline.scope) =
      closesSibling name (outlines.map Outline.scope) := by
  cases outlines with
  | nil => rfl
  | cons outline outlines =>
    cases outline with
    | element other => exact closedBy_renamedName options other name
    | component | block => rfl

/-- A closing tag closes something around after renaming exactly if it does before. -/
theorem closesAround_renamed (apart : Apart options names) (isName : names name)
    (known : ∀ outline ∈ outlines, outline.NamedIn names) :
    closesAround (renamedName options name)
        ((outlines.map (Outline.renamed options)).map Outline.scope) =
      closesAround name (outlines.map Outline.scope) := by
  cases outlines with
  | nil => rfl
  | cons outline outlines =>
    obtain ⟨isKnown, outer⟩ := List.forall_mem_cons.mp known
    cases outline with
    | element other =>
      exact congrArg₂ (fun same closes => !same && closes) (apart.beq_eq isKnown isName)
        (closesEnclosing_renamed apart isName outer)
    | component | block => rfl

/-- What an element is depends on its name in the same way after renaming. -/
theorem ofName_renamed (options : Options) (name : String) (selfClosing : Bool) :
    (specialElement? name = none ∧ namesComponent name = false ∧
        Role.ofName name selfClosing = .element name selfClosing ∧
        Role.ofName (renamedName options name) selfClosing =
          .element (renamedName options name) selfClosing) ∨
      ((∀ name', Role.ofName name selfClosing ≠ .element name' selfClosing) ∧
        ∀ name', Role.ofName (renamedName options name) selfClosing ≠ .element name' selfClosing) := by
  unfold Role.ofName
  rw [specialElement?_renamedName, namesComponent_renamedName]
  cases specialElement? name with
  | some kind => exact .inr ⟨nofun, nofun⟩
  | none =>
    cases namesComponent name with
    | true => exact .inr ⟨nofun, nofun⟩
    | false => exact .inl ⟨rfl, rfl, rfl, rfl⟩

end ClassHoist.Markup
