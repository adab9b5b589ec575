import ClassHoist.Marker
import ClassHoist.Proofs.ByteOffsets
import ClassHoist.Proofs.Matches

/-! # Renaming, one character at a time

Renaming looks for the marks one after the other, each in the result of the one before. All of it
is one pass that leaves every character alone but the colons directly after the name of an enabled
mark (`renameMarkers_eq`).
-/

namespace ClassHoist

/-- The text with an underscore for every colon directly after one of the names; `seen` is what
stands before the text, last character first. -/
def underscored (names : List Text) (seen : Text) : Text → Text
  | [] => []
  | c :: rest =>
    (if c = ':' ∧ names.any (fun name => name.reverse.isPrefixOf seen) then '_' else c) ::
      underscored names (c :: seen) rest

/-- Without names nothing is renamed. -/
theorem underscored_nil_names (seen text : Text) : underscored [] seen text = text := by
  induction text generalizing seen with
  | nil => rfl
  | cons c rest ih =>
    rw [underscored, ih, if_neg]
    rintro ⟨-, impossible⟩
    cases impossible

/-- A text is renamed in parts, the later ones behind what was seen of the earlier. -/
theorem underscored_append (names : List Text) (seen first second : Text) :
    underscored names seen (first ++ second) =
      underscored names seen first ++ underscored names (first.reverse ++ seen) second := by
  induction first generalizing seen with
  | nil => rfl
  | cons c rest ih =>
    simp only [List.cons_append, underscored, ih, List.reverse_cons, List.append_assoc,
      List.nil_append]

/-- A text without colons is not renamed. -/
theorem underscored_of_no_colon (names : List Text) (seen : Text) {text : Text}
    (noColon : ':' ∉ text) : underscored names seen text = text := by
  induction text generalizing seen with
  | nil => rfl
  | cons c rest ih =>
    have notColon : c ≠ ':' := fun same => noColon (same ▸ List.mem_cons_self)
    rw [underscored, if_neg fun both => notColon both.1,
      ih _ fun inRest => noColon (List.mem_cons_of_mem _ inRest)]

/-- A name ends before a colon or after it. -/
theorem suffix_of_suffix_append_cons {c : Char} {name before after : Text} (absent : c ∉ name)
    (isSuffix : name <:+ before ++ c :: after) : name <:+ after := by
  rcases List.suffix_or_suffix_of_suffix isSuffix (List.suffix_append before (c :: after)) with
    inside | longer
  · rcases List.suffix_cons_iff.mp inside with same | inAfter
    · exact absurd (same ▸ List.mem_cons_self) absent
    · exact inAfter
  · exact absurd (longer.subset List.mem_cons_self) absent

/-- A name has been seen exactly if the text in front ends with it. -/
theorem isPrefixOf_reverse_iff {name seen : Text} :
    name.reverse.isPrefixOf seen = true ↔ name <:+ seen.reverse := by
  rw [List.isPrefixOf_iff_prefix, ← List.reverse_suffix, List.reverse_reverse]

/-- A mark is renamed at its colon. -/
theorem underscored_mark {name : Text} (noColon : ':' ∉ name) (seen : Text) :
    underscored [name] seen (name ++ [':']) = name ++ ['_'] := by
  have ends : name.reverse.isPrefixOf (name.reverse ++ seen) = true :=
    List.isPrefixOf_iff_prefix.mpr (List.prefix_append _ _)
  rw [underscored_append, underscored_of_no_colon _ _ noColon]
  simp only [underscored, List.any_cons, List.any_nil, ends, Bool.or_false, and_self, ↓reduceIte]

/-- Replacing each mark is renaming its colons, when none of its matches starts before the text. -/
theorem replaceAll_mark {name : Text} (noColon : ':' ∉ name) {nonempty : name ++ [':'] ≠ []}
    {seen text : Text}
    (fresh : ∀ before after, text = before ++ ':' :: after → name <:+ seen.reverse ++ before →
      name <:+ before) :
    (Pattern.literal (name ++ [':']) nonempty).replaceAll (name ++ ['_']) text =
      underscored [name] seen text := by
  induction counted : text.length using Nat.strongRecOn generalizing seen text with
  | ind count ih =>
    cases text with
    | nil => exact Pattern.replaceAll_nil _ _
    | cons c rest =>
      -- Where the mark starts it is replaced as a whole, and nothing behind it ends in the name.
      by_cases starts : ∃ after, c :: rest = (name ++ [':']) ++ after
      · obtain ⟨after, split⟩ := starts
        have matched := Pattern.read_literal nonempty after
        rw [← split] at matched
        have shorter : after.length < count := by
          rw [← counted, split, List.length_append, List.length_append, List.length_singleton]
          omega
        rw [Pattern.replaceAll_of_read matched, split, underscored_append,
          underscored_mark noColon]
        congr 1
        refine ih after.length shorter (fun before tail _ ends => ?_) rfl
        rw [List.reverse_append, List.reverse_reverse, List.append_assoc, List.append_assoc] at ends
        have behind : name <:+ (seen.reverse ++ name) ++ ':' :: before := by
          rw [List.append_assoc]
          exact ends
        exact suffix_of_suffix_append_cons noColon behind
      · have unmatched : (Pattern.literal (name ++ [':']) nonempty).read (c :: rest) = none :=
          Pattern.read_literal_eq_none fun after split => starts ⟨after, split⟩
        have kept : ¬ (c = ':' ∧ [name].any (fun name => name.reverse.isPrefixOf seen)) := by
          rintro ⟨rfl, ends⟩
          rw [List.any_cons, List.any_nil, Bool.or_false, isPrefixOf_reverse_iff] at ends
          have empty := List.suffix_nil.mp (fresh [] rest rfl (by rwa [List.append_nil]))
          exact starts ⟨rest, by rw [empty]; rfl⟩
        rw [Pattern.replaceAll_of_read_eq_none unmatched, underscored, if_neg kept]
        congr 1
        refine ih rest.length (by rw [← counted, List.length_cons]; omega) ?_ rfl
        intro before after split ends
        rw [List.reverse_cons, List.append_assoc] at ends
        have whole := fresh (c :: before) after (by rw [split]; rfl) ends
        rcases List.suffix_cons_iff.mp whole with same | inBefore
        · exact absurd ⟨after, by rw [split, same]; simp⟩ starts
        · exact inBefore

/-- Renaming other names first makes no difference to where a name stands. -/
theorem underscored_underscored {name : Text} (names : List Text) {seen seen' text : Text}
    (noColon : ':' ∉ name) (noUnderscore : '_' ∉ name)
    (same : ∀ lead : Text, ':' ∉ lead → '_' ∉ lead → lead.isPrefixOf seen' = lead.isPrefixOf seen) :
    underscored [name] seen' (underscored names seen text) =
      underscored (names ++ [name]) seen text := by
  induction text generalizing seen seen' with
  | nil => rfl
  | cons c rest ih =>
    have sameName : name.reverse.isPrefixOf seen' = name.reverse.isPrefixOf seen :=
      same _ (by rwa [List.mem_reverse]) (by rwa [List.mem_reverse])
    have stillSame : ∀ {first second : Char}, second = first ∨ (first = ':' ∧ second = '_') →
        ∀ lead : Text, ':' ∉ lead → '_' ∉ lead →
          lead.isPrefixOf (second :: seen') = lead.isPrefixOf (first :: seen) := by
      intro first second related lead leadNoColon leadNoUnderscore
      cases lead with
      | nil => rfl
      | cons d more =>
        have inRest := same more (fun inMore => leadNoColon (List.mem_cons_of_mem _ inMore))
          fun inMore => leadNoUnderscore (List.mem_cons_of_mem _ inMore)
        rw [List.isPrefixOf_cons_cons, List.isPrefixOf_cons_cons, inRest]
        rcases related with rfl | ⟨rfl, rfl⟩
        · rfl
        · have notColon : d ≠ ':' := fun isColon => leadNoColon (isColon ▸ List.mem_cons_self)
          have notUnderscore : d ≠ '_' := fun isUnderscore =>
            leadNoUnderscore (isUnderscore ▸ List.mem_cons_self)
          rw [beq_eq_false_iff_ne.mpr notColon, beq_eq_false_iff_ne.mpr notUnderscore]
    by_cases renamed : c = ':' ∧ names.any (fun name => name.reverse.isPrefixOf seen)
    · obtain ⟨rfl, found⟩ := renamed
      simp only [underscored, found, and_self, ↓reduceIte, List.any_append, Bool.true_or]
      rw [ih (stillSame (.inr ⟨rfl, rfl⟩)), if_neg]
      rintro ⟨impossible, -⟩
      cases impossible
    · rw [underscored, if_neg renamed, underscored, underscored, ih (stillSame (.inl rfl))]
      congr 1
      simp only [List.any_append, List.any_cons, List.any_nil, Bool.or_false, sameName]
      by_cases colon : c = ':'
      · have none : names.any (fun name => name.reverse.isPrefixOf seen) = false :=
          Bool.eq_false_iff.mpr fun found => renamed ⟨colon, found⟩
        rw [none, Bool.false_or]
      · rw [if_neg fun both => colon both.1, if_neg fun both => colon both.1]

/-- The names of the marks that the options enable. -/
def Options.names (options : Options) : List Text := options.markers.map Marker.name

/-- The name of a marker holds no colon. -/
theorem Marker.colon_not_mem_name (marker : Marker) : ':' ∉ marker.name := by
  cases marker with
  | direction way => cases way <;> decide
  | global => decide

/-- The name of a marker holds no underscore. -/
theorem Marker.underscore_not_mem_name (marker : Marker) : '_' ∉ marker.name := by
  cases marker with
  | direction way => cases way <;> decide
  | global => decide

/-- Replacing marks one after the other renames the colons of all of them. -/
theorem foldl_replaceAll (markers : List Marker) (names : List Text) (text : Text) :
    markers.foldl (fun text marker => marker.pattern.replaceAll marker.renamedLead text)
        (underscored names [] text) =
      underscored (names ++ markers.map Marker.name) [] text := by
  induction markers generalizing names with
  | nil =>
    rw [List.map_nil, List.append_nil]
    rfl
  | cons marker rest ih =>
    have one : marker.pattern.replaceAll marker.renamedLead (underscored names [] text) =
        underscored [marker.name] [] (underscored names [] text) :=
      replaceAll_mark marker.colon_not_mem_name fun before after _ ends => by simpa using ends
    rw [List.foldl_cons, one,
      underscored_underscored names marker.colon_not_mem_name marker.underscore_not_mem_name
        fun _ _ _ => rfl,
      ih, List.map_cons, List.append_assoc]
    rfl

/-- **Renaming in one pass.** -/
theorem renameMarkers_eq (options : Options) (text : Text) :
    renameMarkers options text = underscored options.names [] text := by
  have all := foldl_replaceAll options.markers [] text
  rw [underscored_nil_names] at all
  exact all

/-- Renaming keeps the size of a text. -/
theorem bytes_underscored (names : List Text) (seen text : Text) :
    Text.bytes (underscored names seen text) = Text.bytes text := by
  induction text generalizing seen with
  | nil => rfl
  | cons c rest ih =>
    rw [underscored, Text.bytes_cons, Text.bytes_cons, ih]
    split
    · next both =>
      rw [both.1]
      rfl
    · rfl

section LooksBack

variable {c : Char}

/-- The name of a marker holds letters only. -/
theorem Marker.not_mem_name (marker : Marker) (noLetter : c.isAlpha = false) : c ∉ marker.name := by
  have letters : marker.name.all Char.isAlpha = true := by
    cases marker with
    | direction way => cases way <;> decide
    | global => decide
  intro member
  have letter := List.all_eq_true.mp letters c member
  rw [noLetter] at letter
  cases letter

/-- A name ends before a character that is not in it. -/
theorem isPrefixOf_append_cons {name : Text} (absent : c ∉ name) (near far : Text) :
    name.isPrefixOf (near ++ c :: far) = name.isPrefixOf near := by
  induction near generalizing name with
  | nil =>
    cases name with
    | nil => rfl
    | cons d rest =>
      have differs : d ≠ c := fun same => absent (same ▸ List.mem_cons_self)
      rw [List.nil_append, List.isPrefixOf_cons_cons, beq_eq_false_iff_ne.mpr differs]
      rfl
  | cons e near ih =>
    cases name with
    | nil => rfl
    | cons d rest =>
      rw [List.cons_append, List.isPrefixOf_cons_cons, List.isPrefixOf_cons_cons,
        ih fun inRest => absent (List.mem_cons_of_mem _ inRest)]

/-- What stands before a character that is in no name does not count. -/
theorem underscored_append_cons {names : List Text} (absent : ∀ name ∈ names, c ∉ name)
    (near far text : Text) :
    underscored names (near ++ c :: far) text = underscored names near text := by
  induction text generalizing near with
  | nil => rfl
  | cons d rest ih =>
    have same : (names.any fun name => name.reverse.isPrefixOf (near ++ c :: far)) =
        names.any fun name => name.reverse.isPrefixOf near := by
      rw [Bool.eq_iff_iff, List.any_eq_true, List.any_eq_true]
      refine exists_congr fun name => and_congr_right fun member => ?_
      rw [isPrefixOf_append_cons fun inName => absent name member (List.mem_reverse.mp inName)]
    rw [underscored, underscored, same, ← List.cons_append, ih]

/-- The names of the enabled markers hold letters only. -/
theorem Options.not_mem_names (options : Options) (noLetter : c.isAlpha = false) :
    ∀ name ∈ options.names, c ∉ name := by
  intro name member
  obtain ⟨marker, -, rfl⟩ := List.mem_map.mp member
  exact marker.not_mem_name noLetter

end LooksBack

/-- A character stays in its place, as it is or as the underscore of a renamed mark. -/
theorem charAt?_renameMarkers (options : Options) (before after : Text) (c : Char) :
    Text.charAt? (renameMarkers options (before ++ c :: after)) (Text.bytes before) = some c ∨
      (c = ':' ∧ ∃ marker ∈ options.markers, ∃ start,
        Text.charAt? (renameMarkers options (before ++ c :: after)) (Text.bytes before) = some '_' ∧
        Text.Stands (renameMarkers options (before ++ c :: after)) start (Text.bytes before + 1)
          marker.renamedLead) := by
  rw [renameMarkers_eq, underscored_append, underscored, List.append_nil]
  have counted := bytes_underscored options.names [] before
  split
  case isFalse =>
    rw [← counted]
    exact .inl (Text.charAt?_append _ _ c)
  case isTrue both =>
    obtain ⟨isColon, found⟩ := both
    obtain ⟨name, isName, ends⟩ := List.any_eq_true.mp found
    obtain ⟨marker, enabled, rfl⟩ := List.mem_map.mp isName
    rw [isPrefixOf_reverse_iff, List.reverse_reverse] at ends
    obtain ⟨lead, rfl⟩ := ends
    refine .inr ⟨isColon, marker, enabled, Text.bytes lead, ?_, ?_⟩
    · rw [← counted]
      exact Text.charAt?_append _ _ '_'
    · refine ⟨underscored options.names [] lead,
        underscored options.names (c :: (lead ++ marker.name).reverse) after, ?_,
        bytes_underscored _ _ _, ?_⟩
      · rw [underscored_append, underscored_of_no_colon _ _ marker.colon_not_mem_name,
          Marker.renamedLead, List.append_assoc, List.append_assoc]
        rfl
      · rw [Marker.renamedLead, Text.bytes_append, Text.bytes_append, ← Nat.add_assoc]
        rfl

end ClassHoist
