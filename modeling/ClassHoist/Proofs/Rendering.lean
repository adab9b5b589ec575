import ClassHoist.Proofs.Names
import ClassHoist.Proofs.Renaming
import ClassHoist.Rule
import Mathlib.Data.List.Infix

/-! # Rules after renaming

Renaming looks back no further than to the last character that is no letter, so a text can be
renamed in parts that meet at such characters (`renameMarkers_append_cons`). Rules start with a
space and end with a brace: wherever they are put, each is renamed on its own
(`renameMarkers_renderAll`), and the rule of a group keeps its selector (`renameMarkers_plainRule`).
-/

namespace ClassHoist

/-- The text without the backslashes that escape a character. -/
def unescape : Text → Text
  | '\\' :: c :: rest => c :: unescape rest
  | c :: rest => c :: unescape rest
  | [] => []

/-- Any character but a backslash is unescaped to itself. -/
theorem unescape_cons {c : Char} (rest : Text) (plain : c ≠ '\\') :
    unescape (c :: rest) = c :: unescape rest := by
  cases rest with
  | nil => simp only [unescape]
  | cons d more =>
    rw [unescape]
    rintro _ _ rfl
    exact absurd rfl plain

/-- A selector can be read back. -/
theorem unescape_escapeName (name : Text) : unescape (escapeName name) = name := by
  induction name with
  | nil => rfl
  | cons c rest ih =>
    rw [escapeName, List.flatMap_cons, ← escapeName]
    by_cases plain : isPlainInSelector c = true
    · rw [if_pos plain, List.singleton_append, unescape_cons, ih]
      rintro rfl
      exact absurd plain (by decide)
    · rw [if_neg plain, List.cons_append, List.singleton_append, unescape, ih]

/-- Escaping a name adds no characters but backslashes. -/
theorem not_mem_escapeName {c : Char} {name : Text} (notSlash : c ≠ '\\') (absent : c ∉ name) :
    c ∉ escapeName name := by
  intro member
  obtain ⟨d, isIn, here⟩ := List.mem_flatMap.mp member
  split at here
  · exact absent (List.mem_singleton.mp here ▸ isIn)
  · rcases List.mem_cons.mp here with slash | same
    · exact notSlash slash
    · exact absent (List.mem_singleton.mp same ▸ isIn)

/-- A literal pattern occurs in a text exactly if its text does. -/
theorem Pattern.occursIn_literal_iff {part : Text} (nonempty : part ≠ []) (text : Text) :
    (Pattern.literal part nonempty).occursIn text = true ↔ part <:+: text := by
  induction text with
  | nil =>
    rw [List.infix_nil]
    exact ⟨fun impossible => (nomatch impossible), fun empty => absurd empty nonempty⟩
  | cons c rest ih =>
    rw [List.infix_cons_iff, ← ih, occursIn]
    by_cases starts : part <+: c :: rest
    · obtain ⟨after, same⟩ := starts
      have matched := read_literal nonempty after
      rw [same] at matched
      rw [find?_of_read matched]
      exact ⟨fun _ => .inl ⟨after, same⟩, fun _ => rfl⟩
    · have unmatched : (literal part nonempty).read (c :: rest) = none :=
        read_literal_eq_none fun after same => starts ⟨after, same.symm⟩
      rw [find?_of_read_eq_none unmatched, Option.isSome_map, ← occursIn]
      exact ⟨.inr, fun either => either.resolve_left starts⟩

/-- A class is marked for a direction if the mark stands anywhere in it. -/
theorem isDirected_iff (direction : Direction) (token : Text) :
    isDirected direction token = true ↔ (Marker.direction direction).lead <:+: token :=
  Pattern.occursIn_literal_iff _ token

section Parts

variable {options : Options} {c : Char}

/-- A text without colons is not renamed. -/
theorem renameMarkers_of_no_colon (options : Options) {text : Text} (noColon : ':' ∉ text) :
    renameMarkers options text = text := by
  rw [renameMarkers_eq, underscored_of_no_colon _ _ noColon]

/-- Nothing is renamed at the start of a text. -/
theorem renameMarkers_cons (options : Options) (noLetter : c.isAlpha = false) (text : Text) :
    renameMarkers options (c :: text) = c :: renameMarkers options text := by
  have later := underscored_append_cons (options.not_mem_names noLetter) [] [] text
  rw [renameMarkers_eq, renameMarkers_eq, underscored, ← later, if_neg]
  · rfl
  · rintro ⟨-, found⟩
    obtain ⟨name, member, ends⟩ := List.any_eq_true.mp found
    obtain ⟨marker, -, rfl⟩ := List.mem_map.mp member
    rw [isPrefixOf_reverse_iff, List.reverse_nil, List.suffix_nil] at ends
    cases marker with
    | direction way => cases way <;> cases ends
    | global => cases ends

/-- Texts that meet at a character that is no letter are renamed on their own. -/
theorem renameMarkers_append_cons (options : Options) (noLetter : c.isAlpha = false)
    (notColon : c ≠ ':') (before after : Text) :
    renameMarkers options (before ++ c :: after) =
      renameMarkers options before ++ c :: renameMarkers options after := by
  have later := underscored_append_cons (options.not_mem_names noLetter) [] before.reverse after
  rw [renameMarkers_eq, renameMarkers_eq, renameMarkers_eq, underscored_append, List.append_nil,
    underscored, if_neg fun both => notColon both.1, ← later]
  rfl

end Parts

namespace GlobalRule

/-- A rule without direction is the selector in `:global` and the classes to apply. -/
theorem render_of_direction_eq_none {rule : GlobalRule} (noDirection : rule.direction = none) :
    rule.render =
      " :global(".toList ++ rule.selector ++ ") \x7b @apply ".toList ++ rule.apply ++
        "; \x7d".toList := by
  unfold render
  rw [noDirection]
  simp only [List.append_nil]

/-- A rule starts with a space and ends with a brace. -/
theorem exists_render (rule : GlobalRule) : ∃ body, rule.render = ' ' :: (body ++ ['\x7d']) := by
  obtain ⟨scope, isRule⟩ : ∃ scope : Text, rule.render =
      " :global(".toList ++ scope ++ rule.selector ++ ") \x7b @apply ".toList ++ rule.apply ++
        "; \x7d".toList := ⟨_, rfl⟩
  refine ⟨":global(".toList ++ scope ++ rule.selector ++ ") \x7b @apply ".toList ++ rule.apply ++
    "; ".toList, ?_⟩
  rw [isRule]
  simp only [List.append_assoc]
  rfl

variable (options : Options)

/-- A rule is renamed on its own in front of other text. -/
theorem renameMarkers_render_append (rule : GlobalRule) (after : Text) :
    renameMarkers options (rule.render ++ after) =
      renameMarkers options rule.render ++ renameMarkers options after := by
  obtain ⟨body, isRule⟩ := rule.exists_render
  have meet (rest : Text) := renameMarkers_append_cons (c := '\x7d') options (by decide) (by decide)
    (' ' :: body) rest
  rw [isRule, ← List.cons_append, List.append_assoc, List.singleton_append, meet, meet,
    List.append_assoc, @renameMarkers_of_no_colon options [] List.not_mem_nil]
  rfl

/-- A rule is renamed on its own behind other text. -/
theorem renameMarkers_append_render (before : Text) (rule : GlobalRule) (after : Text) :
    renameMarkers options (before ++ (rule.render ++ after)) =
      renameMarkers options before ++ renameMarkers options (rule.render ++ after) := by
  obtain ⟨body, isRule⟩ := rule.exists_render
  rw [isRule, List.cons_append,
    renameMarkers_append_cons (c := ' ') options (by decide) (by decide),
    renameMarkers_cons (c := ' ') options (by decide)]

/-- Rules are renamed one by one. -/
theorem renameMarkers_renderAll (rules : List GlobalRule) (after : Text) :
    renameMarkers options (renderAll rules ++ after) =
      rules.flatMap (fun rule => renameMarkers options rule.render) ++
        renameMarkers options after := by
  induction rules with
  | nil => rfl
  | cons rule rest ih =>
    rw [renderAll, List.flatMap_cons, ← renderAll, List.append_assoc, renameMarkers_render_append,
      ih, List.flatMap_cons, List.append_assoc]

/-- What stands before rules is renamed on its own. -/
theorem renameMarkers_append_renderAll (before : Text) {rules : List GlobalRule}
    (nonempty : rules ≠ []) (after : Text) :
    renameMarkers options (before ++ (renderAll rules ++ after)) =
      renameMarkers options before ++ renameMarkers options (renderAll rules ++ after) := by
  cases rules with
  | nil => exact absurd rfl nonempty
  | cons rule rest =>
    rw [renderAll, List.flatMap_cons, List.append_assoc, renameMarkers_append_render]

end GlobalRule

/-- The classes of a group that are marked for no direction. -/
def undirected (group : Text) : List Text :=
  (Text.splitOn ' ' group).filter fun token =>
    ¬ (Marker.direction .rtl).lead <:+: token ∧ ¬ (Marker.direction .ltr).lead <:+: token

/-- The plain rule of a group applies its classes that are marked for no direction. -/
theorem apply_plainRule (group : Text) :
    (plainRule group).apply = joinTokens (undirected group) := by
  refine congrArg joinTokens (List.filter_congr fun token _ => ?_)
  rw [Bool.eq_iff_iff, decide_eq_true_eq, ← isDirected_iff, ← isDirected_iff]
  simp only [Direction.all, List.all_cons, List.all_nil, Bool.and_true, Bool.and_eq_true,
    Bool.not_eq_true', Bool.not_eq_true]

/-- The rule of a group after renaming. -/
theorem renameMarkers_plainRule (options : Options) (group : Text) :
    renameMarkers options (plainRule group).render =
      " :global(.".toList ++ escapeName (groupName group) ++ ") \x7b @apply ".toList ++
        renameMarkers options (joinTokens (undirected group)) ++ "; \x7d".toList := by
  have noColon : ':' ∉ escapeName (groupName group) :=
    not_mem_escapeName (by decide) (not_mem_groupName (.inl rfl))
  have selector : renameMarkers options
      ("global(.".toList ++ escapeName (groupName group) ++ ") \x7b @apply".toList) =
        "global(.".toList ++ escapeName (groupName group) ++ ") \x7b @apply".toList := by
    refine renameMarkers_of_no_colon options fun member => ?_
    rcases List.mem_append.mp member with front | tail
    · rcases List.mem_append.mp front with lead | name
      · exact absurd lead (by decide)
      · exact noColon name
    · exact absurd tail (by decide)
  have lead : " :global(".toList = [' ', ':'] ++ "global(".toList := by decide
  have dot : "global(.".toList = "global(".toList ++ ['.'] := by decide
  have opened : ") \x7b @apply ".toList = ") \x7b @apply".toList ++ [' '] := by decide
  have closed : "; \x7d".toList = ';' :: " \x7d".toList := by decide
  have whole : (plainRule group).render = ' ' :: ':' ::
      (("global(.".toList ++ escapeName (groupName group) ++ ") \x7b @apply".toList) ++
        ' ' :: (joinTokens (undirected group) ++ ';' :: " \x7d".toList)) := by
    rw [GlobalRule.render_of_direction_eq_none rfl, apply_plainRule, lead, dot, opened, closed]
    simp only [plainRule, classSelector, List.append_assoc, List.cons_append, List.nil_append]
  have brace : renameMarkers options " \x7d".toList = " \x7d".toList :=
    renameMarkers_of_no_colon options (by decide)
  rw [whole, renameMarkers_cons (c := ' ') options (by decide),
    renameMarkers_cons (c := ':') options (by decide),
    renameMarkers_append_cons (c := ' ') options (by decide) (by decide), selector,
    renameMarkers_append_cons (c := ';') options (by decide) (by decide), brace]
  simp

/-- The rule for a direction has that direction. -/
theorem direction_of_directedRule? {group : Text} {direction : Direction} {rule : GlobalRule}
    (found : directedRule? group direction = some rule) : rule.direction = some direction := by
  unfold directedRule? at found
  dsimp only at found
  split at found
  · cases found
  · obtain rfl := Option.some.inj found
    rfl

/-- A group has one rule for no direction and, if directions are supported, at most one for each. -/
theorem exists_groupRules (group : Text) (rtl : Bool) :
    ∃ directed, groupRules group rtl = plainRule group :: directed ∧
      (directed.map GlobalRule.direction).Sublist
        (if rtl then [some Direction.rtl, some Direction.ltr] else []) := by
  have each (directions : List Direction) :
      ((directions.filterMap (directedRule? group)).map GlobalRule.direction).Sublist
        (directions.map some) := by
    induction directions with
    | nil => exact List.Sublist.refl _
    | cons direction rest ih =>
      cases found : directedRule? group direction with
      | none =>
        rw [List.filterMap_cons_none found]
        exact ih.cons _
      | some rule =>
        rw [List.filterMap_cons_some found, List.map_cons, direction_of_directedRule? found]
        exact ih.cons_cons _
  refine ⟨_, rfl, ?_⟩
  cases rtl with
  | false => exact List.Sublist.refl _
  | true => exact each Direction.all

end ClassHoist
