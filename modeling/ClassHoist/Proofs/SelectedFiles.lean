import ClassHoist.Proofs.SecondRuns
import ClassHoist.Proofs.TidyPaths
import Mathlib.Data.List.Sort

/-! # The files that are selected

The files of a run are those that are named, and those below named folders that count
(`Selection.Selects`). Each of them is there once, and they are in order. Two lists of paths that lead to
the same files and folders have the same files (`Selection.files_of_existing`), provided that no pattern
tells the spelling of a file from the tidy one: patterns are held against a file as its path is spelled,
everything else goes by the parts of paths. A path with a single point between its names can so lead to
files that are left out if the point is not there (`Selection.files_of_innerPoint`).
-/

namespace ClassHoist

open Command

/-- Lists of paths in strictly ascending order have the same parts if they have the same members but for
their spelling. -/
theorem Path.map_parts_eq {first second : List Path} (sorted : first.Pairwise Path.IsBefore)
    (sorted' : second.Pairwise Path.IsBefore)
    (same : ∀ path : Path, (∃ listed ∈ first, listed.parts = path.parts) ↔
      ∃ listed ∈ second, listed.parts = path.parts) : first.map parts = second.map parts := by
  have keys {paths : List Path} (sorted : paths.Pairwise Path.IsBefore) :
      (paths.map key).Pairwise (· < ·) :=
    List.pairwise_map.mpr (sorted.imp isBefore_iff.mp)
  have mem_keys {paths : List Path} (path : Path) :
      path.key ∈ paths.map key ↔ ∃ listed ∈ paths, listed.parts = path.parts := by
    simp only [List.mem_map, key_eq_iff]
  have members : ∀ key', key' ∈ first.map key ↔ key' ∈ second.map key := by
    intro key'
    constructor
    · rintro mem
      obtain ⟨path, -, rfl⟩ := List.mem_map.mp mem
      exact (mem_keys path).mpr ((same path).mp ((mem_keys path).mp mem))
    · rintro mem
      obtain ⟨path, -, rfl⟩ := List.mem_map.mp mem
      exact (mem_keys path).mpr ((same path).mpr ((mem_keys path).mp mem))
  have sameKeys := (keys sorted).eq_of_mem_iff (keys sorted') members
  have keyed (paths : List Path) : paths.map key = (paths.map parts).map (List.map Part.key) := by
    rw [List.map_map]
    rfl
  rw [keyed, keyed] at sameKeys
  exact List.map_injective_iff.mpr (List.map_injective_iff.mpr Part.key_injective) sameKeys

/-- A path leads down from the end of another one, or is that path with another spelling. -/
structure Path.LeadsDown (outer inner : Path) : Prop where
  alike : inner.isAbsolute = outer.isAbsolute
  plain : inner.IsPlainFrom outer.steps

theorem Path.LeadsDown.of_parts {outer inner : Path} (same : outer.parts = inner.parts) :
    outer.LeadsDown inner := by
  obtain ⟨alike, steps⟩ := parts_eq_iff.mp same
  exact ⟨alike.symm, [], by rw [steps, List.append_nil], by simp⟩

namespace Selection

variable {selection : Selection} {store : FileStore} {view : Path → Path} {path file seen : Path}
  {paths others files : List Path} {name : Text} {folder names : Place}

/-- There is a file or a folder at the path. -/
def IsThere (selection : Selection) (store : FileStore) (path : Path) : Prop :=
  (store.file? (selection.workspace.join path)).isSome = true ∨
    (store.folder? (selection.workspace.join path)).isSome = true

/-- A pattern describes the path as seen from the workspace. -/
def ignores (selection : Selection) (seen : Path) : Bool :=
  selection.ignored.any (·.accepts (seen.relativeTo selection.workspace).spelling)

/-- A file below a folder counts: its name has one of the endings, it does not lie in the folder for
processed files, and no pattern describes the path by which it is seen. -/
structure Counts (selection : Selection) (name : Text) (file seen : Path) : Prop where
  ending : ∃ ending ∈ selection.extensions, ending <:+ name
  apart : ∀ outDir ∈ selection.outDir, ¬ outDir.parts <+: file.parts
  kept : selection.ignores seen = false

/-- The paths lead to the file: it is named, or it lies below a folder that is named and counts. A
pattern sees a file by the path that `view` makes of the one by which it was reached. -/
inductive Selects (selection : Selection) (store : FileStore) (view : Path → Path)
    (paths : List Path) (file : Path) : Prop where
  | named {path : Path} (listed : path ∈ paths)
      (there : (store.file? (selection.workspace.join path)).isSome = true)
      (same : (selection.workspace.join path).parts = file.parts)
  | found {path reached : Path} {folder names : Place} (listed : path ∈ paths)
      (isFolder : store.folder? (selection.workspace.join path) = some folder)
      (below : names ∈ store.filesBelow folder)
      (way : reached =
        names.foldl (fun path name => path.join ⟨name⟩) (selection.workspace.join path))
      (same : reached.parts = file.parts)
      (counts : selection.Counts (names.getLastD []) file (view reached))

/-- No pattern tells the spelling of a file below the path from the tidy one. -/
def IsSteady (selection : Selection) (store : FileStore) (path : Path) : Prop :=
  ∀ folder, store.folder? (selection.workspace.join path) = some folder →
    ∀ names ∈ store.filesBelow folder, ∀ reached : Path,
      reached = names.foldl (fun path name => path.join ⟨name⟩) (selection.workspace.join path) →
        selection.ignores reached = selection.ignores reached.tidy

/-- What is at the path is at one of the paths or below a folder there. -/
def Covers (selection : Selection) (store : FileStore) (paths : List Path) (path : Path) : Prop :=
  ∃ outer ∈ paths,
    (selection.workspace.join outer).parts = (selection.workspace.join path).parts ∨
      (store.folder? (selection.workspace.join path)).isSome = true ∧
        (selection.workspace.join outer).LeadsDown (selection.workspace.join path)

theorem keeps_iff : selection.keeps name file = true ↔ selection.Counts name file file := by
  simp only [keeps, Bool.and_eq_true, Bool.not_eq_true', List.any_eq_true,
    List.isSuffixOf_iff_suffix]
  constructor
  · rintro ⟨⟨ending, apart⟩, kept⟩
    refine ⟨ending, fun outDir given within => ?_, kept⟩
    rw [Option.mem_def.mp given, Option.any_some, Path.isWithin,
      List.isPrefixOf_iff_prefix.mpr within] at apart
    cases apart
  · rintro ⟨ending, apart, kept⟩
    refine ⟨⟨ending, ?_⟩, kept⟩
    cases given : selection.outDir with
    | none => rfl
    | some outDir =>
      rw [Option.any_some, Path.isWithin, Bool.eq_false_iff, ne_eq, List.isPrefixOf_iff_prefix]
      exact apart outDir given

/-- Only the parts of a file matter, but for how patterns see it. -/
theorem Counts.congr {other seen' : Path} (counts : selection.Counts name file seen)
    (same : file.parts = other.parts)
    (alike : selection.ignores seen = selection.ignores seen') :
    selection.Counts name other seen' :=
  ⟨counts.ending, same ▸ counts.apart, alike ▸ counts.kept⟩

/-- A folder is no file below itself. -/
theorem ne_nil_of_mem_filesBelow (tree : store.IsTree) (isFolder : store.folder? path = some folder)
    (below : names ∈ store.filesBelow folder) : names ≠ [] := by
  rintro rfl
  have isFile := (tree.locate_of_mem_filesBelow isFolder below).2
  rw [List.append_nil, tree.content?_of_isFolder (FileStore.folder?_eq_some_iff.mp isFolder).2]
    at isFile
  cases isFile

/-- Paths with the same parts do not lead to a file and to a folder. -/
theorem not_file?_of_folder? {other : Path} (tree : store.IsTree)
    (same : path.parts = other.parts) (isFolder : (store.folder? path).isSome = true) :
    store.file? other = none := by
  obtain ⟨folder, isFolder⟩ := Option.isSome_iff_exists.mp isFolder
  obtain ⟨located, isFolder⟩ := FileStore.folder?_eq_some_iff.mp isFolder
  cases found : store.locate other with
  | none => rw [FileStore.file?, found]; rfl
  | some place =>
    have places : placeOf path = placeOf other := by
      rw [placeOf, placeOf, ← Path.foldl_enter_steps, ← Path.foldl_enter_steps,
        (Path.parts_eq_iff.mp same).2]
    obtain rfl : folder = place := by
      rw [FileStore.eq_placeOf_of_locate located, FileStore.eq_placeOf_of_locate found, places]
    rw [FileStore.file?, found]
    exact tree.content?_of_isFolder isFolder

/-- Files below a folder in another folder lie below this one too. -/
theorem append_mem_filesBelow {rest : Place} (below : names ∈ store.filesBelow (folder ++ rest)) :
    rest ++ names ∈ store.filesBelow folder := by
  obtain ⟨entry, listed, isBelow⟩ := List.mem_filterMap.mp below
  refine List.mem_filterMap.mpr ⟨entry, listed, ?_⟩
  rw [List.isPrefixOf?_eq_some_iff_append_eq, List.append_assoc] at isBelow
  exact List.isPrefixOf?_eq_some_iff_append_eq.mpr isBelow

/-- What lies below a folder lies below each folder from which it leads down. -/
theorem exists_below_of_leadsDown {outer inner : Path} (tree : store.IsTree)
    (leads : outer.LeadsDown inner) (isFolder : store.folder? inner = some folder)
    (below : names ∈ store.filesBelow folder) :
    ∃ upper more, store.folder? outer = some upper ∧ more ∈ store.filesBelow upper ∧
      more.getLastD [] = names.getLastD [] ∧
        (more.foldl (fun path name => path.join ⟨name⟩) outer).parts =
          (names.foldl (fun path name => path.join ⟨name⟩) inner).parts := by
  obtain ⟨alike, rest, steps, plain⟩ := leads
  have upper := FileStore.folder?_of_prefix isFolder ⟨rest, steps.symm⟩
  have place : folder = placeOf outer ++ rest := by
    rw [FileStore.eq_placeOf_of_locate (FileStore.folder?_eq_some_iff.mp isFolder).1,
      Path.placeOf_eq_append steps plain, Path.foldl_enter_steps]
    rfl
  have nonempty := ne_nil_of_mem_filesBelow tree isFolder below
  have entries := tree.named.entries_of_mem_filesBelow below
  rw [place] at below
  have more := append_mem_filesBelow below
  have entries' := tree.named.entries_of_mem_filesBelow more
  refine ⟨_, rest ++ names, upper, more, ?_, Path.parts_eq_iff.mpr ⟨?_, ?_⟩⟩
  · rw [List.getLastD_eq_getLast?, List.getLastD_eq_getLast?,
      List.getLast?_append_of_ne_nil _ nonempty]
  · rw [Path.isAbsolute_foldl_join_eq entries', Path.isAbsolute_foldl_join_eq entries, alike]
  · rw [steps_foldl_join entries', steps_foldl_join entries, steps, List.append_assoc]

/-- A path without segments that say nothing behind others is steady whatever the patterns. -/
theorem isSteady_of_isNeat (tree : store.IsTree) (neat : path.IsNeat) :
    selection.IsSteady store path := by
  rintro folder isFolder names below reached rfl
  have entries := tree.named.entries_of_mem_filesBelow below
  have nonempty := ne_nil_of_mem_filesBelow tree isFolder below
  rw [ignores, ignores, Path.relativeTo_tidy neat entries nonempty]

theorem mem_filesBelow : file ∈ selection.filesBelow store path folder ↔
    ∃ names ∈ store.filesBelow folder,
      file = names.foldl (fun path name => path.join ⟨name⟩) path ∧
        selection.keeps (names.getLastD []) file = true := by
  simp only [filesBelow, List.mem_filterMap]
  constructor
  · rintro ⟨names, below, found⟩
    split at found
    case isTrue keeps =>
      obtain rfl := Option.some.inj found
      exact ⟨names, below, rfl, keeps⟩
    case isFalse => cases found
  · rintro ⟨names, below, rfl, keeps⟩
    exact ⟨names, below, if_pos keeps⟩

theorem filesAt_of_file? (there : (store.file? (selection.workspace.join path)).isSome = true) :
    selection.filesAt store path = .ok [selection.workspace.join path] := by
  simp only [filesAt, there, ↓reduceIte]

/-- All files at existing paths are found. -/
theorem exists_filesAtAll (tree : store.IsTree)
    (existing : ∀ path ∈ paths, selection.IsThere store path) :
    ∃ all, selection.filesAtAll store paths = .ok all ∧ ∀ path ∈ paths, ∀ part,
      selection.filesAt store path = .ok part → ∀ file ∈ part, file ∈ all := by
  induction paths with
  | nil => exact ⟨[], rfl, by simp⟩
  | cons path rest ih =>
    obtain ⟨here, later⟩ := List.forall_mem_cons.mp existing
    obtain ⟨all, found, complete⟩ := ih later
    obtain ⟨first, isFirst⟩ : ∃ first, selection.filesAt store path = .ok first := by
      rcases here with there | isFolder
      · exact ⟨_, filesAt_of_file? there⟩
      · obtain ⟨folder, isFolder⟩ := Option.isSome_iff_exists.mp isFolder
        exact ⟨_, filesAt_of_folder? tree isFolder⟩
    refine ⟨first ++ all, by rw [filesAtAll, isFirst, found]; rfl, ?_⟩
    intro other listed part isPart file mem
    rcases List.mem_cons.mp listed with rfl | listed
    · obtain rfl := Except.ok.inj (isFirst.symm.trans isPart)
      exact List.mem_append_left _ mem
    · exact List.mem_append_right _ (complete other listed part isPart file mem)

/-- The files at existing paths are in order, and they are those that are selected. -/
theorem exists_files (tree : store.IsTree)
    (existing : ∀ path ∈ paths, selection.IsThere store path) :
    ∃ files, selection.files store paths = .ok files ∧ files.Pairwise Path.IsBefore ∧
      ∀ file : Path, (∃ listed ∈ files, listed.parts = file.parts) ↔
        selection.Selects store id paths file := by
  obtain ⟨all, found, complete⟩ := exists_filesAtAll tree existing
  have isFiles : selection.files store paths = .ok (Path.arrange all) := by
    rw [files, found]
    rfl
  refine ⟨_, isFiles, Path.pairwise_arrange all, fun file => ⟨?_, fun selects => ?_⟩⟩
  · rintro ⟨listed, mem, same⟩
    obtain ⟨path, named, ⟨rfl, there⟩ | ⟨folder, isFolder, names, below, way, keeps⟩⟩ :=
      cases_of_mem_files isFiles mem
    · exact .named named there same
    · exact .found named isFolder below way same ((keeps_iff.mp keeps).congr same rfl)
  · obtain ⟨reached, mem, same⟩ : ∃ reached ∈ all, reached.parts = file.parts := by
      cases selects with
      | named listed there same =>
        exact ⟨_, complete _ listed _ (filesAt_of_file? there) _ List.mem_cons_self, same⟩
      | found listed isFolder below way same counts =>
        refine ⟨_, complete _ listed _ (filesAt_of_folder? tree isFolder) _ ?_, same⟩
        exact mem_filesBelow.mpr
          ⟨_, below, way, keeps_iff.mpr (counts.congr same.symm rfl)⟩
    obtain ⟨listed, mem, same'⟩ := Path.exists_mem_arrange mem
    exact ⟨listed, mem, same'.trans same⟩

/-- Where paths are steady, patterns can as well see files by their tidy paths. -/
theorem selects_tidy_iff (steady : ∀ path ∈ paths, selection.IsSteady store path) :
    selection.Selects store Path.tidy paths file ↔ selection.Selects store id paths file := by
  constructor
  · rintro (⟨listed, there, same⟩ | ⟨listed, isFolder, below, way, same, counts⟩)
    · exact .named listed there same
    · exact .found listed isFolder below way same
        (counts.congr rfl (steady _ listed _ isFolder _ below _ way).symm)
  · rintro (⟨listed, there, same⟩ | ⟨listed, isFolder, below, way, same, counts⟩)
    · exact .named listed there same
    · exact .found listed isFolder below way same
        (counts.congr rfl (steady _ listed _ isFolder _ below _ way))

theorem Selects.mono (selects : selection.Selects store view paths file)
    (within : ∀ path ∈ paths, path ∈ others) : selection.Selects store view others file := by
  cases selects with
  | named listed there same => exact .named (within _ listed) there same
  | found listed isFolder below way same counts =>
    exact .found (within _ listed) isFolder below way same counts

/-- What paths lead to, those that cover them lead to as well. -/
theorem Selects.of_covers (tree : store.IsTree)
    (existing : ∀ path ∈ others, selection.IsThere store path)
    (covers : ∀ path ∈ paths, selection.Covers store others path)
    (selects : selection.Selects store Path.tidy paths file) :
    selection.Selects store Path.tidy others file := by
  rcases selects with ⟨listed, there, same⟩ | ⟨listed, isFolder, below, rfl, same, counts⟩
  · obtain ⟨outer, mem, alike | ⟨isFolder, -⟩⟩ := covers _ listed
    · rcases existing outer mem with isFile | isFolder
      · exact .named mem isFile (alike.trans same)
      · rw [not_file?_of_folder? tree alike isFolder] at there
        cases there
    · rw [not_file?_of_folder? tree rfl isFolder] at there
      cases there
  · obtain ⟨outer, mem, cover⟩ := covers _ listed
    have leads := cover.elim Path.LeadsDown.of_parts And.right
    obtain ⟨upper, more, isUpper, below', last, parts⟩ :=
      exists_below_of_leadsDown tree leads isFolder below
    refine .found mem isUpper below' rfl (parts.trans same) ?_
    rw [last, Path.tidy_congr parts]
    exact counts

/-- **The files of a run depend only on what is selected.** At existing paths the files are in strictly
ascending order, so that each is there once; and they are exactly those that are named and those below
named folders that count, where patterns see a file by the path by which it was reached. If that is no
other to the patterns than the tidy path, they are those that count by their parts alone. So paths in
another order or repeated have the same files; and if no pattern tells spellings apart so have paths with
another spelling, and folders that lie in other folders add nothing. -/
theorem files_of_existing (tree : store.IsTree)
    (existing : ∀ path ∈ paths, selection.IsThere store path) :
    ∃ files, selection.files store paths = .ok files ∧ files.Pairwise Path.IsBefore ∧
      (∀ file : Path, (∃ listed ∈ files, listed.parts = file.parts) ↔
        selection.Selects store id paths file) ∧
      ((∀ path ∈ paths, selection.IsSteady store path) →
        ∀ file : Path, (∃ listed ∈ files, listed.parts = file.parts) ↔
          selection.Selects store Path.tidy paths file) ∧
      ∀ others, (∀ path ∈ others, selection.IsThere store path) →
        ((∀ path, path ∈ others ↔ path ∈ paths) ∨
          (∀ path ∈ paths ++ others, selection.IsSteady store path) ∧
            (∀ path ∈ others, selection.Covers store paths path) ∧
              ∀ path ∈ paths, selection.Covers store others path) →
        ∃ again, selection.files store others = .ok again ∧
          again.map Path.parts = files.map Path.parts := by
  obtain ⟨files, isFiles, sorted, exact⟩ := exists_files tree existing
  refine ⟨files, isFiles, sorted, exact, fun steady file => ?_, fun others existing' alike => ?_⟩
  · rw [exact, selects_tidy_iff steady]
  · obtain ⟨again, isAgain, sorted', exact'⟩ := exists_files tree existing'
    refine ⟨again, isAgain, Path.map_parts_eq sorted' sorted fun file => ?_⟩
    rw [exact, exact']
    rcases alike with same | ⟨steady, covers, covers'⟩
    · exact ⟨fun selects => selects.mono fun path => (same path).mp,
        fun selects => selects.mono fun path => (same path).mpr⟩
    · obtain ⟨steady, steady'⟩ := List.forall_mem_append.mp steady
      rw [← selects_tidy_iff steady, ← selects_tidy_iff steady']
      exact ⟨Selects.of_covers tree existing covers, Selects.of_covers tree existing' covers'⟩

/-- A workspace with a folder of generated components. -/
def generated : FileStore where
  files := [(["ws".toList, "src".toList, "A.svelte".toList], .text []),
    (["ws".toList, "src".toList, "gen".toList, "D.svelte".toList], .text []),
    (["ws".toList, "notes.md".toList], .text [])]
  folders := [["ws".toList], ["ws".toList, "src".toList], ["ws".toList, "src".toList, "gen".toList]]

/-- Components count unless they are generated. -/
def notGenerated : Selection where
  workspace := Path.ofString "/ws"
  extensions := [".svelte".toList]
  ignored := [⟨"src/gen".toList.map .literal ++ [.trailingFolders]⟩]
  outDir := some (Path.ofString "/ws/out")

theorem isTree_generated : generated.IsTree where
  named := by
    unfold FileStore.Named IsEntry
    decide +kernel
  fileInside := by decide +kernel
  folderInside := by decide +kernel
  apart := by decide +kernel

/-- Whether there is something at a path can be found out. -/
instance (selection : Selection) (store : FileStore) (path : Path) :
    Decidable (selection.IsThere store path) := inferInstanceAs (Decidable (_ ∨ _))

/-- The same files are there by other paths: in another order, one of them twice and with a point in
front, and without the folder that lies in another one. -/
theorem files_of_existing_generated :
    ∃ files, notGenerated.files generated (["notes.md", "./src", "src/gen/"].map Path.ofString) =
        .ok files ∧ files.Pairwise Path.IsBefore ∧
      (∀ file : Path, (∃ listed ∈ files, listed.parts = file.parts) ↔
        notGenerated.Selects generated Path.tidy
          (["notes.md", "./src", "src/gen/"].map Path.ofString) file) ∧
      ∃ again, notGenerated.files generated (["src", "./notes.md", "src"].map Path.ofString) =
        .ok again ∧ again.map Path.parts = files.map Path.parts := by
  have existing : ∀ path ∈ ["notes.md", "./src", "src/gen/"].map Path.ofString,
      notGenerated.IsThere generated path := by decide +kernel
  have existing' : ∀ path ∈ ["src", "./notes.md", "src"].map Path.ofString,
      notGenerated.IsThere generated path := by decide +kernel
  have steady : ∀ path ∈ ["notes.md", "./src", "src/gen/"].map Path.ofString ++
      ["src", "./notes.md", "src"].map Path.ofString, notGenerated.IsSteady generated path := by
    have neat : ∀ path ∈ ["notes.md", "./src", "src/gen/"].map Path.ofString ++
      ["src", "./notes.md", "src"].map Path.ofString, path.IsNeat := by decide +kernel
    exact fun path listed => isSteady_of_isNeat isTree_generated (neat path listed)
  have covers : ∀ path ∈ ["src", "./notes.md", "src"].map Path.ofString, notGenerated.Covers
      generated (["notes.md", "./src", "src/gen/"].map Path.ofString) path := by
    have alike : ∀ path ∈ ["src", "./notes.md", "src"].map Path.ofString,
        ∃ outer ∈ ["notes.md", "./src", "src/gen/"].map Path.ofString,
          (notGenerated.workspace.join outer).parts = (notGenerated.workspace.join path).parts := by
      decide +kernel
    intro path listed
    obtain ⟨outer, mem, same⟩ := alike path listed
    exact ⟨outer, mem, .inl same⟩
  have covers' : ∀ path ∈ ["notes.md", "./src", "src/gen/"].map Path.ofString, notGenerated.Covers
      generated (["src", "./notes.md", "src"].map Path.ofString) path := by
    simp only [List.map_cons, List.map_nil, List.forall_mem_cons]
    refine ⟨⟨_, .tail _ (.head _), .inl (by decide +kernel)⟩,
      ⟨_, .head _, .inl (by decide +kernel)⟩, ⟨_, .head _, .inr ?_⟩, by simp⟩
    exact ⟨by decide +kernel, by decide +kernel, ["gen".toList], by decide +kernel, by decide⟩
  obtain ⟨files, isFiles, sorted, -, exact, same⟩ :=
    files_of_existing isTree_generated existing
  exact ⟨files, isFiles, sorted, exact fun path listed => steady path (List.mem_append_left _ listed),
    same _ existing' (.inr ⟨steady, covers, covers'⟩)⟩

/-- A point between the names of a path leads nowhere else, and yet patterns see it: a file that a pattern
describes is left out below the one path and found below the other. -/
theorem files_of_innerPoint :
    globsOf ["src/gen/**".toList] = .ok notGenerated.ignored ∧ generated.IsTree ∧
      (∀ path ∈ ["src/gen", "src/./gen"].map Path.ofString, notGenerated.IsThere generated path) ∧
      (notGenerated.workspace.join (Path.ofString "src/gen")).parts =
        (notGenerated.workspace.join (Path.ofString "src/./gen")).parts ∧
      (notGenerated.files generated [Path.ofString "src/gen"]).toOption = some [] ∧
      (notGenerated.files generated [Path.ofString "src/./gen"]).toOption =
        some [Path.ofString "/ws/src/./gen/D.svelte"] := by
  exact ⟨by rfl, isTree_generated, by decide +kernel, by decide +kernel, by decide +kernel,
    by decide +kernel⟩

end Selection

end ClassHoist
