import ClassHoist.Proofs.Destinations

/-! # Tidy spellings

Paths with the same parts can be spelled in several ways, one of which has no segment that says nothing
(`Path.tidy`). Patterns are held against spellings. What lies below a folder is spelled tidily as seen
from another folder if the path from this one to that is written without such segments behind the first
one that says something (`Path.relativeTo_tidy`).
-/

namespace ClassHoist.Path

variable {path folder first second : Path} {segments rest blanks : List Text}

/-- The path with the same parts, spelled without segments that say nothing. -/
def tidy (path : Path) : Path :=
  ⟨(if path.isAbsolute then ['/'] else []) ++ ['/'].intercalate path.steps⟩

/-- Parts are told by where a path starts and by its steps. -/
theorem parts_eq_iff : first.parts = second.parts ↔
    first.isAbsolute = second.isAbsolute ∧ first.steps = second.steps := by
  have inner := (List.map_injective_iff.mpr partOfSegment_injective).eq_iff
    (a := first.steps) (b := second.steps)
  have parts_eq (path : Path) : path.parts =
      if path.isAbsolute then .root :: path.steps.map partOfSegment
      else path.steps.map partOfSegment := rfl
  have other (steps more : List Text) :
      steps.map partOfSegment ≠ .root :: more.map partOfSegment := by
    cases steps with
    | nil => simp
    | cons step steps => simp [partOfSegment_ne_root]
  rw [parts_eq, parts_eq]
  cases first.isAbsolute <;> cases second.isAbsolute
  · simpa using inner
  · simp [other]
  · simp [(other _ _).symm]
  · simpa using inner

/-- Paths with the same parts have the same tidy spelling. -/
theorem tidy_congr (same : first.parts = second.parts) : first.tidy = second.tidy := by
  obtain ⟨alike, steps⟩ := parts_eq_iff.mp same
  rw [tidy, tidy, alike, steps]

/-- No step of a path holds a slash. -/
theorem not_mem_of_mem_steps {segment : Text} (mem : segment ∈ path.steps) : '/' ∉ segment :=
  Text.not_mem_of_mem_splitOn (List.mem_of_mem_filter mem)

/-- The segments of a tidy path are its steps, but for empty ones in front. -/
theorem segments_tidy (path : Path) :
    ∃ blanks, (∀ blank ∈ blanks, isIdle blank = true) ∧ path.tidy.segments = blanks ++ path.steps := by
  have split : Text.splitOn '/' (['/'].intercalate path.steps) = path.steps ∨
      path.steps = [] ∧ Text.splitOn '/' (['/'].intercalate path.steps) = [[]] := by
    cases steps : path.steps with
    | nil => exact .inr ⟨rfl, rfl⟩
    | cons segment more =>
      refine .inl (Text.splitOn_intercalate '/' (List.cons_ne_nil _ _) fun part mem => ?_)
      exact not_mem_of_mem_steps (steps ▸ mem)
  have inner : ∃ blanks, (∀ blank ∈ blanks, isIdle blank = true) ∧
      Text.splitOn '/' (['/'].intercalate path.steps) = blanks ++ path.steps := by
    rcases split with split | ⟨none, split⟩
    · exact ⟨[], by simp, split⟩
    · exact ⟨[[]], by simp [isIdle], by rw [split, none, List.append_nil]⟩
  obtain ⟨blanks, idle, inner⟩ := inner
  unfold segments tidy
  split
  · refine ⟨[] :: blanks, by simpa [isIdle] using idle, ?_⟩
    have front := Text.splitOn_append_separator '/' [] (['/'].intercalate path.steps)
    rw [List.nil_append] at front
    rw [List.singleton_append, front, inner]
    rfl
  · exact ⟨blanks, idle, inner⟩

/-- Of segments that say nothing, none is left. -/
theorem filter_isIdle (idle : ∀ blank ∈ blanks, isIdle blank = true) :
    blanks.filter (!isIdle ·) = [] := by
  simpa [List.filter_eq_nil_iff] using idle

/-- All steps of a path say something. -/
theorem filter_steps (path : Path) : path.steps.filter (!isIdle ·) = path.steps :=
  List.filter_eq_self.mpr fun _ mem => (List.mem_filter.mp mem).2

/-- A path spelled tidily has the same steps. -/
theorem steps_tidy (path : Path) : path.tidy.steps = path.steps := by
  obtain ⟨blanks, idle, same⟩ := segments_tidy path
  rw [steps, same, List.filter_append, filter_isIdle idle, List.nil_append, filter_steps]

/-- A path spelled tidily is absolute if the path is. -/
theorem isAbsolute_tidy (path : Path) : path.tidy.isAbsolute = path.isAbsolute := by
  unfold tidy
  split
  case isTrue absolute =>
    rw [absolute]
    rfl
  case isFalse relative =>
    rw [Bool.eq_false_iff.mpr relative, List.nil_append]
    simp only [isAbsolute, beq_eq_false_iff_ne]
    cases same : path.steps with
    | nil => simp [List.intercalate]
    | cons segment more =>
      have mem : segment ∈ path.steps := same ▸ List.mem_cons_self
      have free := not_mem_of_mem_steps mem
      cases segment with
      | nil => exact absurd (isIdle_of_mem_steps mem) (by simp [isIdle])
      | cons c name =>
        have other : c ≠ '/' := fun slash => free (slash ▸ List.mem_cons_self)
        cases more <;> simpa [List.intercalate] using other

/-- **A tidy path has the same parts.** -/
theorem parts_tidy (path : Path) : path.tidy.parts = path.parts :=
  parts_eq_iff.mpr ⟨isAbsolute_tidy path, steps_tidy path⟩

/-- Behind the segments that say as much as was dropped everything is left. -/
theorem dropSegments_append (segments rest : List Text) :
    ∃ blanks, (∀ blank ∈ blanks, isIdle blank = true) ∧
      dropSegments (segments.filter (!isIdle ·)).length (segments ++ rest) = blanks ++ rest := by
  induction segments with
  | nil => exact ⟨[], by simp, by simp [dropSegments]⟩
  | cons segment more ih =>
    obtain ⟨blanks, idle, left⟩ := ih
    cases idles : isIdle segment with
    | false =>
      refine ⟨blanks, idle, ?_⟩
      rw [List.filter_cons_of_pos (by simp [idles]), List.length_cons, List.cons_append,
        dropSegments, if_neg (by simp [idles]), left]
    | true =>
      rw [List.filter_cons_of_neg (by simp [idles])]
      cases count : (more.filter (!isIdle ·)).length with
      | zero =>
        refine ⟨segment :: more, ?_, by rw [dropSegments]⟩
        have none := List.filter_eq_nil_iff.mp (List.length_eq_zero_iff.mp count)
        intro blank mem
        rcases List.mem_cons.mp mem with rfl | mem
        · exact idles
        · simpa using none blank mem
      | succ count' =>
        rw [count] at left
        refine ⟨blanks, idle, ?_⟩
        rw [List.cons_append, dropSegments, if_pos idles, left]

/-- Segments that say nothing are trimmed in front. -/
theorem trimSegments_append (idle : ∀ blank ∈ blanks, isIdle blank = true)
    (telling : ∀ segment ∈ segments, isIdle segment = false) :
    trimSegments (blanks ++ segments) = segments := by
  have kept {segments : List Text} (telling : ∀ segment ∈ segments, isIdle segment = false) :
      segments.dropWhile isIdle = segments := by
    cases segments with
    | nil => rfl
    | cons segment more =>
      exact List.dropWhile_cons_of_neg (by simp [telling segment List.mem_cons_self])
  rw [trimSegments, List.dropWhile_append_of_pos idle, kept telling,
    kept fun segment mem => telling segment (List.mem_reverse.mp mem), List.reverse_reverse]

/-- Behind the segments of a folder, those that follow are left if each of them says something, but for
some in front. -/
theorem relativeTo_eq (split : path.segments = segments ++ (blanks ++ rest))
    (upper : segments.filter (!isIdle ·) = folder.steps)
    (idle : ∀ blank ∈ blanks, isIdle blank = true)
    (telling : ∀ segment ∈ rest, isIdle segment = false)
    (within : path.isWithin folder = true) :
    path.relativeTo folder = ⟨['/'].intercalate rest⟩ := by
  obtain ⟨more, idle', left⟩ := dropSegments_append segments (blanks ++ rest)
  have all : ∀ blank ∈ more ++ blanks, isIdle blank = true := by
    intro blank mem
    exact (List.mem_append.mp mem).elim (idle' blank) (idle blank)
  rw [upper, ← List.append_assoc more] at left
  simp only [relativeTo, below?, within, ↓reduceIte, filter_parts, List.length_map, split, left,
    trimSegments_append all telling, Option.getD_some]

/-- A folder decides whether a relative path joined to it is absolute. -/
theorem isAbsolute_join_eq (folder : Path) (relative : path.isAbsolute = false) :
    (folder.join path).isAbsolute = folder.isAbsolute := by
  simp only [join, relative, Bool.false_eq_true, ↓reduceIte]
  cases upper : folder.spelling with
  | nil => simpa [isAbsolute, upper] using relative
  | cons c more => split <;> simp [isAbsolute, upper]

/-- What lies below the end of a path starts where the path starts. -/
theorem isAbsolute_foldl_join_eq {names : Place} (entries : ∀ name ∈ names, IsEntry name)
    (path : Path) : (names.foldl (fun path name => path.join ⟨name⟩) path).isAbsolute =
      path.isAbsolute := by
  induction names generalizing path with
  | nil => rfl
  | cons name rest ih =>
    rw [List.foldl_cons, ih fun name mem => entries name (List.mem_cons_of_mem _ mem)]
    exact isAbsolute_join_eq path (entries name List.mem_cons_self).isAbsolute

/-- The segments of a joined path are those of the folder and then those of the path, without an
empty one at the end. -/
theorem frontSegments_join (folder : Path) (relative : path.isAbsolute = false) :
    (folder.join path).frontSegments = folder.frontSegments ++ path.frontSegments := by
  have joined := segments_join folder relative
  obtain ⟨lead, last, same⟩ :=
    (List.eq_nil_or_concat' path.segments).resolve_left (Text.splitOn_ne_nil '/' path.spelling)
  unfold frontSegments at joined ⊢
  rw [joined, same, ← List.append_assoc]
  simp only [List.getLast?_concat, List.dropLast_concat]
  split <;> simp

/-- Names that lie below the end of a path follow its segments. -/
theorem segments_foldl_join {names : Place} (entries : ∀ name ∈ names, IsEntry name)
    (nonempty : names ≠ []) (path : Path) :
    (names.foldl (fun path name => path.join ⟨name⟩) path).segments =
      path.frontSegments ++ names := by
  induction names generalizing path with
  | nil => exact absurd rfl nonempty
  | cons name rest ih =>
    have entry := entries name List.mem_cons_self
    have single : Path.segments ⟨name⟩ = [name] := Text.splitOn_eq_singleton entry.2.2
    cases rest with
    | nil => rw [List.foldl_cons, List.foldl_nil, segments_join path entry.isAbsolute, single]
    | cons next more =>
      have last : Path.frontSegments ⟨name⟩ = [name] := by
        have named : name ≠ [] := by
          rintro rfl
          cases entry.1
        simp [frontSegments, single, named]
      rw [List.foldl_cons, ih (fun name mem => entries name (List.mem_cons_of_mem _ mem))
        (List.cons_ne_nil next more), frontSegments_join path entry.isAbsolute, last,
        List.append_assoc, List.singleton_append]

/-- A path from a folder that has segments that say nothing only in front, but for a slash at its
end. -/
structure IsNeat (path : Path) : Prop where
  relative : path.isAbsolute = false
  told : path.frontSegments.dropWhile isIdle = path.steps

instance (path : Path) : Decidable path.IsNeat :=
  decidable_of_iff (path.isAbsolute = false ∧ path.frontSegments.dropWhile isIdle = path.steps)
    ⟨fun ⟨relative, told⟩ => ⟨relative, told⟩, fun ⟨relative, told⟩ => ⟨relative, told⟩⟩

/-- A tidy path is spelled tidily as seen from a folder. -/
theorem tidy_relativeTo (alike : path.isAbsolute = folder.isAbsolute)
    (split : path.steps = folder.steps ++ rest) :
    path.tidy.relativeTo folder = ⟨['/'].intercalate rest⟩ := by
  obtain ⟨blanks, idle, segments⟩ := segments_tidy path
  have upper : (blanks ++ folder.steps).filter (!isIdle ·) = folder.steps := by
    rw [List.filter_append, filter_isIdle idle, filter_steps, List.nil_append]
  have within : path.tidy.isWithin folder = true := by
    rw [isWithin, parts_tidy, ← isWithin, isWithin_iff_of_isAbsolute_eq alike, split]
    exact List.prefix_append _ _
  have telling : ∀ segment ∈ rest, isIdle segment = false := fun segment mem =>
    isIdle_of_mem_steps (split ▸ List.mem_append_right folder.steps mem)
  rw [split, ← List.append_assoc] at segments
  exact relativeTo_eq (show _ = (blanks ++ folder.steps) ++ ([] ++ rest) from segments) upper
    (by simp) telling within

/-- **What lies below the end of a neat path is spelled tidily as seen from the folder.** -/
theorem relativeTo_tidy (neat : path.IsNeat) {names : Place}
    (entries : ∀ name ∈ names, IsEntry name) (nonempty : names ≠ []) :
    (names.foldl (fun path name => path.join ⟨name⟩) (folder.join path)).relativeTo folder =
      (names.foldl (fun path name => path.join ⟨name⟩) (folder.join path)).tidy.relativeTo
        folder := by
  have segments := segments_foldl_join entries nonempty (folder.join path)
  have steps := steps_foldl_join entries (folder.join path)
  have alike : (names.foldl (fun path name => path.join ⟨name⟩) (folder.join path)).isAbsolute =
      folder.isAbsolute := by
    rw [isAbsolute_foldl_join_eq entries, isAbsolute_join_eq folder neat.relative]
  generalize names.foldl (fun path name => path.join ⟨name⟩) (folder.join path) = file at *
  obtain ⟨relative, told⟩ := neat
  have front : path.frontSegments = path.frontSegments.takeWhile isIdle ++ path.steps := by
    rw [← told, List.takeWhile_append_dropWhile]
  have idle : ∀ blank ∈ path.frontSegments.takeWhile isIdle, isIdle blank = true :=
    List.all_eq_true.mp List.all_takeWhile
  have telling : ∀ segment ∈ path.steps ++ names, isIdle segment = false := by
    intro segment mem
    rcases List.mem_append.mp mem with mem | mem
    · exact isIdle_of_mem_steps mem
    · exact (entries segment mem).1
  rw [steps_join relative, List.append_assoc] at steps
  rw [frontSegments_join folder relative, front, List.append_assoc, List.append_assoc] at segments
  have within : file.isWithin folder = true := by
    rw [isWithin_iff_of_isAbsolute_eq alike, steps]
    exact List.prefix_append _ _
  rw [relativeTo_eq segments (filter_frontSegments folder) idle telling within,
    tidy_relativeTo alike steps]

end ClassHoist.Path
