import ClassHoist.Main

/-! # Where paths lead

Where a path leads is told by its steps, the segments that say something. A path below a folder that
is joined to another folder hands its steps on, and as long as none of them leads up a path leads to
the place that its steps name.
-/

namespace ClassHoist

open Command

namespace Text

variable {separator : Char} {text : Text}

/-- Splitting at a separator is the splitting of lists. -/
theorem splitOn_eq (separator : Char) (text : Text) :
    splitOn separator text = List.splitOn separator text := by
  rw [List.splitOn_eq_splitOnP]
  induction text with
  | nil => rfl
  | cons c rest ih =>
    rw [List.splitOnP_cons_eq_if_modifyHead, ← ih]
    simp only [splitOn, beq_iff_eq]
    split
    · rfl
    · cases parts : splitOn separator rest with
      | nil => exact absurd (ih.symm.trans parts) (List.splitOnP_ne_nil _ rest)
      | cons head more => rfl

/-- A text has at least one segment. -/
theorem splitOn_ne_nil (separator : Char) (text : Text) : splitOn separator text ≠ [] := by
  rw [splitOn_eq]
  exact List.splitOn_ne_nil separator text

/-- A separator between two texts divides their segments. -/
theorem splitOn_append_separator (separator : Char) (first second : Text) :
    splitOn separator (first ++ separator :: second) =
      splitOn separator first ++ splitOn separator second := by
  simp only [splitOn_eq, List.splitOn_eq_splitOnP]
  exact List.splitOnP_append_cons first second BEq.rfl

/-- No part contains the separator. -/
theorem not_mem_of_mem_splitOn {part : Text} (mem : part ∈ splitOn separator text) :
    separator ∉ part := by
  induction text generalizing part with
  | nil =>
    obtain rfl := List.mem_singleton.mp mem
    exact List.not_mem_nil
  | cons c rest ih =>
    simp only [splitOn] at mem
    split at mem
    case isTrue =>
      rcases List.mem_cons.mp mem with rfl | later
      · exact List.not_mem_nil
      · exact ih later
    case isFalse other =>
      cases parts : splitOn separator rest with
      | nil => exact absurd parts (splitOn_ne_nil separator rest)
      | cons head more =>
        rw [parts] at mem ih
        rcases List.mem_cons.mp mem with rfl | later
        · have := ih List.mem_cons_self
          simp only [List.mem_cons, not_or]
          exact ⟨Ne.symm other, this⟩
        · exact ih (List.mem_cons_of_mem _ later)

/-- A text without a separator is one segment. -/
theorem splitOn_eq_singleton (free : separator ∉ text) : splitOn separator text = [text] := by
  rw [splitOn_eq, List.splitOn_eq_splitOnP]
  apply List.splitOnP_eq_singleton
  intro c mem
  exact beq_eq_false_iff_ne.mpr fun same => free (same ▸ mem)

/-- The parts with separators between them are the parts again. -/
theorem splitOn_intercalate (separator : Char) {parts : List Text} (nonempty : parts ≠ [])
    (free : ∀ part ∈ parts, separator ∉ part) :
    splitOn separator ([separator].intercalate parts) = parts := by
  rw [splitOn_eq]
  exact List.splitOn_intercalate separator free nonempty

/-- A text without a separator makes the last part longer. -/
theorem splitOn_append (text : Text) {added : Text} (free : separator ∉ added) :
    ∃ lead last, splitOn separator text = lead ++ [last] ∧
      splitOn separator (text ++ added) = lead ++ [last ++ added] := by
  induction text with
  | nil => exact ⟨[], [], rfl, splitOn_eq_singleton free⟩
  | cons c rest ih =>
    obtain ⟨lead, last, before, after⟩ := ih
    by_cases same : c = separator
    · refine ⟨[] :: lead, last, ?_, ?_⟩ <;> simp [splitOn, same, before, after]
    · cases lead with
      | nil => exact ⟨[], c :: last, by simp [splitOn, same, before], by simp [splitOn, same, after]⟩
      | cons head more =>
        exact ⟨(c :: head) :: more, last, by simp [splitOn, same, before],
          by simp [splitOn, same, after]⟩

end Text

namespace Place

/-- Segments that say nothing lead nowhere else. -/
theorem foldl_enter_filter (place : Place) (segments : List Text) :
    (segments.filter (!Path.isIdle ·)).foldl enter place = segments.foldl enter place := by
  induction segments generalizing place with
  | nil => rfl
  | cons segment rest ih =>
    cases idle : Path.isIdle segment with
    | true => simpa [idle, enter] using ih place
    | false => simpa [idle] using ih (place.enter segment)

/-- Segments that say something and do not lead up are the names of what they lead to. -/
theorem foldl_enter_eq_append (place : Place) {segments : List Text}
    (telling : ∀ segment ∈ segments, Path.isIdle segment = false)
    (down : ['.', '.'] ∉ segments) : segments.foldl enter place = place ++ segments := by
  induction segments generalizing place with
  | nil => exact (List.append_nil place).symm
  | cons segment rest ih =>
    obtain ⟨other, later⟩ := not_or.mp (mt List.mem_cons.mpr down)
    have entered : place.enter segment = place ++ [segment] := by
      simp only [enter, telling segment List.mem_cons_self, Bool.false_eq_true, ↓reduceIte,
        Ne.symm other]
    rw [List.foldl_cons, entered,
      ih _ (fun segment mem => telling segment (List.mem_cons_of_mem _ mem)) later]
    exact List.append_cons place segment rest |>.symm

end Place

namespace Path

variable {path folder : Path}

/-- The segments that say something. -/
def steps (path : Path) : List Text := path.segments.filter (!isIdle ·)

/-- No part of the path leads up. -/
def IsPlain (path : Path) : Prop := ['.', '.'] ∉ path.steps

/-- No part of the path leads up after some first steps. -/
def IsPlainFrom (base : List Text) (path : Path) : Prop :=
  ∃ rest, path.steps = base ++ rest ∧ ['.', '.'] ∉ rest

/-- Each step says something. -/
theorem isIdle_of_mem_steps {segment : Text} (mem : segment ∈ path.steps) :
    isIdle segment = false := by
  simpa using (List.mem_filter.mp mem).2

/-- The steps of a path lead where its segments do. -/
theorem foldl_enter_steps (place : Place) (path : Path) :
    path.steps.foldl Place.enter place = path.segments.foldl Place.enter place :=
  Place.foldl_enter_filter place path.segments

/-- Steps that do not lead up are the names of what they lead to. -/
theorem placeOf_eq_append {base rest : List Text} (steps : path.steps = base ++ rest)
    (plain : ['.', '.'] ∉ rest) : placeOf path = base.foldl Place.enter [] ++ rest := by
  rw [placeOf, ← foldl_enter_steps, steps, List.foldl_append]
  refine Place.foldl_enter_eq_append _ (fun segment mem => ?_) plain
  exact isIdle_of_mem_steps (steps ▸ List.mem_append_right _ mem)

variable {base : List Text}

/-- Of two paths that only lead down from the same steps one leads below the other just if its steps
tell so. -/
theorem placeOf_prefix_iff (inner : path.IsPlainFrom base) (outer : folder.IsPlainFrom base) :
    placeOf folder <+: placeOf path ↔ folder.steps <+: path.steps := by
  obtain ⟨rest, steps, plain⟩ := inner
  obtain ⟨upper, upperSteps, upperPlain⟩ := outer
  rw [placeOf_eq_append steps plain, placeOf_eq_append upperSteps upperPlain, steps, upperSteps,
    List.prefix_append_right_inj, List.prefix_append_right_inj]

/-- A path that never leads up does not lead up from the start. -/
theorem IsPlain.isPlainFrom (plain : path.IsPlain) : path.IsPlainFrom [] :=
  ⟨path.steps, rfl, plain⟩

/-- A path below a folder does not lead up after the same first steps, if its own further steps do
not. -/
theorem IsPlainFrom.append (upper : folder.IsPlainFrom base) {rest : List Text}
    (steps : path.steps = folder.steps ++ rest) (plain : ['.', '.'] ∉ rest) :
    path.IsPlainFrom base := by
  obtain ⟨between, upperSteps, upperPlain⟩ := upper
  refine ⟨between ++ rest, by rw [steps, upperSteps, List.append_assoc], ?_⟩
  rw [List.mem_append]
  exact not_or.mpr ⟨upperPlain, plain⟩

/-- The segments of a path, without an empty one at its end. -/
def frontSegments (path : Path) : List Text :=
  if path.segments.getLast? = some [] then path.segments.dropLast else path.segments

/-- A path has no more segments than those in front, or an empty one at its end. -/
theorem segments_cases (path : Path) :
    path.segments = path.frontSegments ∨ path.segments = path.frontSegments ++ [[]] := by
  unfold frontSegments
  split
  case isTrue ends =>
    obtain ⟨lead, same⟩ := List.getLast?_eq_some_iff.mp ends
    exact .inr (by rw [same, List.dropLast_concat])
  case isFalse => exact .inl rfl

/-- Without an empty segment at its end, a path has the same steps. -/
theorem filter_frontSegments (path : Path) : path.frontSegments.filter (!isIdle ·) = path.steps := by
  rcases segments_cases path with same | same
  · rw [steps, same]
  · simp [steps, same, isIdle]

/-- The segments of a joined path are those of the folder, without an empty one at its end, and those
of the path. -/
theorem segments_join (folder : Path) (relative : path.isAbsolute = false) :
    (folder.join path).segments = folder.frontSegments ++ path.segments := by
  simp only [join, relative, Bool.false_eq_true, ↓reduceIte]
  split
  case isTrue ends =>
    rcases ends with empty | slash
    · simp [frontSegments, segments, empty, Text.splitOn]
    · obtain ⟨lead, same⟩ := List.getLast?_eq_some_iff.mp slash
      have split := Text.splitOn_append_separator '/' lead []
      have joined := Text.splitOn_append_separator '/' lead path.spelling
      simp only [frontSegments, segments, same, List.append_assoc, List.singleton_append, split,
        joined]
      simp [Text.splitOn]
  case isFalse other =>
    obtain ⟨named, noSlash⟩ := not_or.mp other
    obtain ⟨lead, c, same⟩ : ∃ lead c, folder.spelling = lead ++ [c] :=
      ⟨_, _, (List.dropLast_concat_getLast named).symm⟩
    have free : '/' ∉ [c] := by
      intro slash
      rw [same, List.getLast?_concat] at noSlash
      exact noSlash (congrArg some (List.mem_singleton.mp slash).symm)
    obtain ⟨front, last, -, split⟩ := Text.splitOn_append lead free
    have closed : folder.frontSegments = folder.segments := by
      simp [frontSegments, segments, same, split]
    rw [closed]
    exact Text.splitOn_append_separator _ _ _

/-- A relative path that is joined to a folder hands its steps on. -/
theorem steps_join (relative : path.isAbsolute = false) :
    (folder.join path).steps = folder.steps ++ path.steps := by
  rw [steps, segments_join folder relative, List.filter_append, filter_frontSegments]
  rfl

/-- A path that does not lead up leads from a folder to what its steps name there. -/
theorem placeOf_join (folder : Path) (relative : path.isAbsolute = false) (plain : path.IsPlain) :
    placeOf (folder.join path) = placeOf folder ++ path.steps := by
  rw [placeOf, ← foldl_enter_steps, steps_join relative, List.foldl_append,
    foldl_enter_steps [] folder]
  exact Place.foldl_enter_eq_append _ (fun _ => isIdle_of_mem_steps) plain

/-- An absolute path takes the place of the folder it is joined to. -/
theorem join_eq_self (absolute : path.isAbsolute = true) : folder.join path = path := by
  simp only [join, absolute, ↓reduceIte]

/-- What is joined to an absolute folder is absolute. -/
theorem isAbsolute_join (absolute : folder.isAbsolute = true) :
    (folder.join path).isAbsolute = true := by
  cases start : path.isAbsolute with
  | true => rwa [join_eq_self start]
  | false =>
    simp only [isAbsolute, beq_iff_eq] at absolute ⊢
    obtain ⟨rest, same⟩ := List.head?_eq_some_iff.mp absolute
    simp only [join, start, Bool.false_eq_true, ↓reduceIte]
    split <;> simp [same]

/-- A path that never leads up, joined to a folder that never leads up, does not lead up either. -/
theorem isPlain_join (upper : folder.IsPlain) (lower : path.IsPlain) :
    (folder.join path).IsPlain := by
  cases start : path.isAbsolute with
  | true => rwa [join_eq_self start]
  | false =>
    rw [IsPlain, steps_join start, List.mem_append]
    exact not_or.mpr ⟨upper, lower⟩

/-- More text at the end of a relative path is more text at the end of it as seen from a folder. -/
theorem extend_join {text : Text} (relative : path.isAbsolute = false)
    (longer : (path.extend text).isAbsolute = false) :
    (folder.join path).extend text = folder.join (path.extend text) := by
  unfold extend at longer ⊢
  simp only [join, relative, longer, Bool.false_eq_true, ↓reduceIte]
  split <;> simp

/-- A longer name is still a name. -/
theorem isPlain_extend {text : Text} (plain : path.IsPlain) (free : '/' ∉ text)
    (long : 2 < text.length) : (path.extend text).IsPlain := by
  obtain ⟨lead, last, before, after⟩ := Text.splitOn_append path.spelling free
  intro up
  have listed := (List.mem_filter.mp up).1
  rw [segments, extend, after] at listed
  rcases List.mem_append.mp listed with earlier | final
  · apply plain
    rw [steps, segments, before, List.filter_append]
    exact List.mem_append_left _ (List.mem_filter.mpr ⟨earlier, by rfl⟩)
  · have counted := congrArg List.length (List.mem_singleton.mp final)
    simp only [List.length_cons, List.length_nil, List.length_append] at counted
    omega

/-- A longer name says something. -/
theorem steps_extend_ne_nil {text : Text} (path : Path) (free : '/' ∉ text)
    (long : 1 < text.length) : (path.extend text).steps ≠ [] := by
  obtain ⟨lead, last, -, after⟩ := Text.splitOn_append path.spelling free
  have telling : isIdle (last ++ text) = false := by
    simp only [isIdle, Bool.or_eq_false_iff, beq_eq_false_iff_ne]
    constructor <;>
    · intro same
      have counted := congrArg List.length same
      simp only [List.length_append, List.length_cons, List.length_nil] at counted
      omega
  rw [steps, segments, extend, after, List.filter_append]
  simp [telling]

/-- A relative path stays one if what is added does not start with a slash. -/
theorem isAbsolute_extend {text : Text} (relative : path.isAbsolute = false)
    (free : '/' ∉ text) : (path.extend text).isAbsolute = false := by
  simp only [isAbsolute, extend, beq_eq_false_iff_ne] at relative ⊢
  cases start : path.spelling with
  | nil =>
    intro slash
    exact free (List.mem_of_mem_head? slash)
  | cons c rest =>
    rw [start] at relative
    exact relative

/-- Different segments are different components. -/
theorem partOfSegment_injective : Function.Injective partOfSegment := by
  intro first second same
  simp only [partOfSegment] at same
  split at same <;> split at same <;> simp_all

/-- A segment is never the root component. -/
theorem partOfSegment_ne_root (segment : Text) : partOfSegment segment ≠ .root := by
  simp only [partOfSegment]
  split <;> simp

/-- The parts other than the root are those that the steps stand for. -/
theorem filter_parts (path : Path) :
    path.parts.filter (· ≠ .root) = path.steps.map partOfSegment := by
  have kept : (path.steps.map partOfSegment).filter (· ≠ .root) = path.steps.map partOfSegment := by
    simp [List.filter_eq_self, partOfSegment_ne_root]
  unfold parts
  simp only
  split
  · rw [List.filter_cons_of_neg (by simp)]
    exact kept
  · exact kept

/-- Of two absolute or two relative paths, one is within the other exactly if its steps begin with
the other's. -/
theorem isWithin_iff_of_isAbsolute_eq (alike : path.isAbsolute = folder.isAbsolute) :
    path.isWithin folder = true ↔ folder.steps <+: path.steps := by
  rw [isWithin, List.isPrefixOf_iff_prefix]
  unfold parts
  simp only [alike]
  split
  · rw [List.prefix_cons_inj]
    exact List.prefix_map_iff_of_injective partOfSegment_injective
  · exact List.prefix_map_iff_of_injective partOfSegment_injective

/-- Of two absolute paths, one is within the other exactly if its steps begin with the other's. -/
theorem isWithin_iff (inner : path.isAbsolute = true) (outer : folder.isAbsolute = true) :
    path.isWithin folder = true ↔ folder.steps <+: path.steps :=
  isWithin_iff_of_isAbsolute_eq (inner.trans outer.symm)

/-- Dropping segments drops as many steps. -/
theorem filter_dropSegments (count : Nat) (segments : List Text) :
    (dropSegments count segments).filter (!isIdle ·) =
      (segments.filter (!isIdle ·)).drop count := by
  fun_induction dropSegments count segments with
  | case1 => rfl
  | case2 => rfl
  | case3 count segment rest idle ih => simpa [idle] using ih
  | case4 count segment rest telling ih => simpa [telling] using ih

/-- Dropping segments leaves the last ones. -/
theorem dropSegments_suffix (count : Nat) (segments : List Text) :
    dropSegments count segments <:+ segments := by
  fun_induction dropSegments count segments with
  | case1 segments => exact List.suffix_rfl
  | case2 => exact List.suffix_rfl
  | case3 count segment rest idle ih => exact ih.trans (List.suffix_cons segment rest)
  | case4 count segment rest telling ih => exact ih.trans (List.suffix_cons segment rest)

/-- Segments that say nothing at the start are no steps. -/
theorem filter_dropWhile_isIdle (segments : List Text) :
    (segments.dropWhile isIdle).filter (!isIdle ·) = segments.filter (!isIdle ·) := by
  induction segments with
  | nil => rfl
  | cons segment rest ih =>
    cases idle : isIdle segment with
    | true => simpa [idle] using ih
    | false => simp [idle]

/-- Trimming segments leaves the steps. -/
theorem filter_trimSegments (segments : List Text) :
    (trimSegments segments).filter (!isIdle ·) = segments.filter (!isIdle ·) := by
  rw [trimSegments, List.filter_reverse, filter_dropWhile_isIdle, List.filter_reverse,
    List.reverse_reverse, filter_dropWhile_isIdle]

/-- Trimming segments adds none and changes no order. -/
theorem trimSegments_sublist (segments : List Text) :
    (trimSegments segments).Sublist segments := by
  have cut := List.dropWhile_sublist isIdle (l := (segments.dropWhile isIdle).reverse)
  have kept := cut.reverse
  rw [List.reverse_reverse] at kept
  exact kept.trans (List.dropWhile_sublist isIdle)

/-- What is left of a trimmed list starts with a segment that says something. -/
theorem isIdle_of_trimSegments_eq_cons {segments rest : List Text} {segment : Text}
    (trimmed : trimSegments segments = segment :: rest) : isIdle segment = false := by
  have start : trimSegments segments <+: segments.dropWhile isIdle := by
    have cut := List.dropWhile_suffix isIdle (l := (segments.dropWhile isIdle).reverse)
    simpa [trimSegments] using List.reverse_prefix.mpr cut
  obtain ⟨more, same⟩ := start
  rw [trimmed, List.cons_append] at same
  have := List.head?_dropWhile_not isIdle segments
  rw [← same] at this
  simpa using this

/-- The rest of a path below a folder is relative and has the steps that the folder does not
have. -/
theorem steps_of_below? {rest : Path} (inner : path.isAbsolute = true)
    (outer : folder.isAbsolute = true) (below : path.below? folder = some rest) :
    path.steps = folder.steps ++ rest.steps ∧ rest.isAbsolute = false := by
  simp only [below?] at below
  split at below
  case isFalse => cases below
  case isTrue within =>
    obtain ⟨later, same⟩ := (isWithin_iff inner outer).mp within
    obtain rfl := Option.some.inj below
    rw [filter_parts, List.length_map]
    generalize trimmed : trimSegments (dropSegments folder.steps.length path.segments) = left
    have told : left.filter (!isIdle ·) = later := by
      rw [← trimmed, filter_trimSegments, filter_dropSegments,
        show path.segments.filter (!isIdle ·) = folder.steps ++ later from same.symm,
        List.drop_left]
    have free : ∀ segment ∈ left, '/' ∉ segment := by
      intro segment mem
      rw [← trimmed] at mem
      have listed := (trimSegments_sublist _).mem mem
      exact Text.not_mem_of_mem_splitOn ((dropSegments_suffix _ _).mem listed)
    cases left with
    | nil =>
      obtain rfl : [] = later := told
      exact ⟨by simpa [steps, segments, Text.splitOn, isIdle] using same.symm, by rfl⟩
    | cons segment more =>
      have split := Text.splitOn_intercalate '/' (List.cons_ne_nil segment more) free
      refine ⟨?_, ?_⟩
      · have named : Path.steps ⟨['/'].intercalate (segment :: more)⟩ = later := by
          rw [steps, segments, split, told]
        rw [named]
        exact same.symm
      · have telling := isIdle_of_trimSegments_eq_cons trimmed
        cases segment with
        | nil => cases telling
        | cons c name =>
          have first := free (c :: name) List.mem_cons_self
          have other : c ≠ '/' := fun slash => first (slash ▸ List.mem_cons_self)
          cases more <;> simpa [isAbsolute, List.intercalate] using other

/-- A path within a folder has the folder's steps and those of its relative path. -/
theorem steps_relativeTo (inner : path.isAbsolute = true) (outer : folder.isAbsolute = true)
    (within : path.isWithin folder = true) :
    path.steps = folder.steps ++ (path.relativeTo folder).steps ∧
      (path.relativeTo folder).isAbsolute = false := by
  cases below : path.below? folder with
  | none => simp [below?, within] at below
  | some rest =>
    rw [relativeTo, below]
    exact steps_of_below? inner outer below

/-- The rest of a path does not lead up if both paths only lead down from the same steps. -/
theorem isPlain_relativeTo (inside : path.IsPlainFrom base) (above : folder.IsPlainFrom base)
    (inner : path.isAbsolute = true) (outer : folder.isAbsolute = true)
    (within : path.isWithin folder = true) : (path.relativeTo folder).IsPlain := by
  obtain ⟨rest, steps, plain⟩ := inside
  obtain ⟨between, upperSteps, -⟩ := above
  have same := (steps_relativeTo inner outer within).1
  rw [steps, upperSteps, List.append_assoc, List.append_cancel_left_eq] at same
  rw [same] at plain
  exact fun up => plain (List.mem_append_right _ up)

/-- Leaving out repeated paths adds none. -/
theorem mem_of_mem_distinctAfter {last : Path} {paths : List Path}
    (mem : path ∈ distinctAfter last paths) : path ∈ paths := by
  induction paths generalizing last with
  | nil => exact mem
  | cons first rest ih =>
    simp only [distinctAfter] at mem
    split at mem
    · exact List.mem_cons_of_mem _ (ih mem)
    · rcases List.mem_cons.mp mem with rfl | later
      · exact List.mem_cons_self
      · exact List.mem_cons_of_mem _ (ih later)

/-- Arranging paths adds none. -/
theorem mem_of_mem_arrange {paths : List Path} (mem : path ∈ arrange paths) : path ∈ paths := by
  have sorted : path ∈ paths.mergeSort le := by
    unfold arrange at mem
    split at mem
    case h_1 => cases mem
    case h_2 first rest same =>
      rw [same]
      rcases List.mem_cons.mp mem with rfl | later
      · exact List.mem_cons_self
      · exact List.mem_cons_of_mem _ (mem_of_mem_distinctAfter later)
  exact List.mem_mergeSort.mp sorted

end Path

end ClassHoist
