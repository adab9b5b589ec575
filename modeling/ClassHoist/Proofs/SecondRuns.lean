import ClassHoist.Proofs.FileTrees
import ClassHoist.Proofs.PathOrder

/-! # Runs that are repeated

What a run writes does not count as a source of the next one as long as paths lead down: the next run
with the same arguments is planned like the first. It counts where the folder for processed files is
spelled with a part that leads up, since only spellings are compared.
-/

namespace ClassHoist

open Command

namespace Selection

variable {selection : Selection} {store before after : FileStore} {path outDir : Path}
  {folder : Place} {base : List Text}

/-- Only files outside the folder for processed files count. -/
theorem filesBelow_eq_filter (given : selection.outDir = some outDir)
    (absoluteOut : outDir.isAbsolute = true) (absolute : path.isAbsolute = true)
    (plainOut : outDir.IsPlainFrom base) (plain : path.IsPlainFrom base) (named : store.Named) :
    selection.filesBelow store path (placeOf path) = selection.filesBelow
      { store with files := store.files.filter (!(placeOf outDir).isPrefixOf ·.1) } path
      (placeOf path) := by
  simp only [filesBelow, FileStore.filesBelow, List.filterMap_filterMap, List.filterMap_filter]
  apply List.filterMap_congr
  rintro ⟨place, content⟩ listed
  cases inOutDir : (placeOf outDir).isPrefixOf place with
  | false => rfl
  | true =>
    simp only [Bool.not_true, Bool.false_eq_true, ↓reduceIte, Option.bind_none,
      Option.bind_eq_none_iff]
    intro names below
    obtain rfl := List.isPrefixOf?_eq_some_iff_append_eq.mp below
    have entries : ∀ name ∈ names, IsEntry name :=
      fun name mem => named _ listed name (List.mem_append_right _ mem)
    have steps := steps_foldl_join entries path
    have down : ['.', '.'] ∉ names := fun up => (entries _ up).2.1 rfl
    have isPlace : placeOf (names.foldl (fun path name => path.join ⟨name⟩) path) =
        placeOf path ++ names := by
      obtain ⟨rest, pathSteps, plain⟩ := plain
      rw [Path.placeOf_eq_append pathSteps plain, List.append_assoc]
      refine Path.placeOf_eq_append (by rw [steps, pathSteps, List.append_assoc]) ?_
      rw [List.mem_append]
      exact not_or.mpr ⟨plain, down⟩
    have within := (Path.isWithin_iff (isAbsolute_foldl_join names absolute) absoluteOut).mpr
      ((Path.placeOf_prefix_iff (plain.append steps down) plainOut).mp
        (isPlace ▸ List.isPrefixOf_iff_prefix.mp inOutDir))
    simp only [keeps, given, Option.any_some, within, Bool.not_true, Bool.and_false,
      Bool.false_and, Bool.false_eq_true, ↓reduceIte]

/-- The same files are found below a folder, if the stores differ only where outputs go. -/
theorem filesBelow_congr (given : selection.outDir = some outDir)
    (absoluteOut : outDir.isAbsolute = true) (absolute : path.isAbsolute = true)
    (plainOut : outDir.IsPlainFrom base) (plain : path.IsPlainFrom base)
    (named : before.Named) (namedAfter : after.Named)
    (same : after.files.filter (!(placeOf outDir).isPrefixOf ·.1) =
      before.files.filter (!(placeOf outDir).isPrefixOf ·.1)) :
    selection.filesBelow after path (placeOf path) =
      selection.filesBelow before path (placeOf path) := by
  rw [filesBelow_eq_filter given absoluteOut absolute plainOut plain namedAfter, same,
    filesBelow_eq_filter given absoluteOut absolute plainOut plain named]
  rfl

/-- At a folder, the files below it are found. -/
theorem filesAt_of_folder? (tree : store.IsTree)
    (found : store.folder? (selection.workspace.join path) = some folder) :
    selection.filesAt store path =
      .ok (selection.filesBelow store (selection.workspace.join path) folder) := by
  obtain ⟨located, isFolder⟩ := FileStore.folder?_eq_some_iff.mp found
  have noFile : store.file? (selection.workspace.join path) = none := by
    rw [FileStore.file?, located]
    exact tree.content?_of_isFolder isFolder
  simp only [filesAt, noFile, Option.isSome_none, Bool.false_eq_true, ↓reduceIte, found]

/-- The same files are found if they are at every path. -/
theorem files_congr {paths : List Path}
    (same : ∀ path ∈ paths, selection.filesAt after path = selection.filesAt before path) :
    selection.files after paths = selection.files before paths := by
  have all : selection.filesAtAll after paths = selection.filesAtAll before paths := by
    induction paths with
    | nil => rfl
    | cons path rest ih =>
      simp only [filesAtAll, same path List.mem_cons_self,
        ih fun path mem => same path (List.mem_cons_of_mem _ mem)]
  rw [files, files, all]

end Selection

/-- The path of the configuration that arguments lead to. -/
def Arguments.configPath (arguments : Arguments) (workspace : Path) : Path :=
  workspace.join (arguments.config.getD Config.fileName)

/-- The same configuration is found if its file holds the same. -/
theorem Config.find_congr {before after : FileStore} {workspace : Path} {arguments : Arguments}
    (same : after.file? (arguments.configPath workspace) =
      before.file? (arguments.configPath workspace)) :
    Config.find after workspace arguments.config = Config.find before workspace arguments.config := by
  unfold Arguments.configPath at same
  cases named : arguments.config with
  | none =>
    rw [named, Option.getD_none] at same
    simp only [Config.find, Config.load, FileStore.text?, same]
  | some path =>
    rw [named, Option.getD_some] at same
    simp only [Config.find, Config.load, FileStore.text?, same]

/-- A plan made from a named configuration found it. -/
theorem Config.isSome_file?_of_find {store : FileStore} {workspace path : Path} {config : Config}
    (found : Config.find store workspace (some path) = .ok config) :
    (store.file? (workspace.join path)).isSome = true := by
  simp only [Config.find, Config.load, FileStore.text?] at found
  cases file : store.file? (workspace.join path) with
  | none =>
    rw [file] at found
    cases found
  | some content => rfl

variable {store before after : FileStore} {current outDir : Path} {arguments : Arguments}
  {plan : Plan}

/-- A plan has a configuration. -/
theorem Plan.exists_config (planned : Plan.ofArguments store current arguments = .ok plan) :
    ∃ config, Config.find store (current.join arguments.workspace) arguments.config = .ok config := by
  cases found : Config.find store (current.join arguments.workspace) arguments.config with
  | error error =>
    simp only [Plan.ofArguments, found, bind, Except.bind] at planned
    cases planned
  | ok config => exact ⟨config, rfl⟩

/-- A plan depends on the configuration and on the files at the paths. -/
theorem Plan.ofArguments_congr
    (sameConfig : Config.find after (current.join arguments.workspace) arguments.config =
      Config.find before (current.join arguments.workspace) arguments.config)
    (sameFiles : ∀ selection : Selection,
      selection.workspace = current.join arguments.workspace →
      selection.outDir = arguments.outDir.map (current.join arguments.workspace).join →
        selection.files after arguments.paths = selection.files before arguments.paths) :
    Plan.ofArguments after current arguments = Plan.ofArguments before current arguments := by
  simp only [Plan.ofArguments, sameConfig]
  congr 1
  funext config
  congr 1
  funext ignored
  rw [sameFiles _ rfl rfl]

/-- A run without files leaves the store as it is. -/
theorem run_eq_of_files_eq_nil (planned : Plan.ofArguments store current arguments = .ok plan)
    (none : plan.files = []) : (run store current arguments).1 = store := by
  unfold run
  rw [planned]
  simp only [none, Job.processAll]

namespace Arguments.LeadDownFrom

variable {base : List Text}

/-- The files at a folder are those that a run found there. -/
theorem filesAt_run_eq (down : arguments.LeadDownFrom base store current outDir)
    (tree : store.IsTree) (planned : Plan.ofArguments store current arguments = .ok plan)
    {path : Path} (listed : path ∈ arguments.paths)
    (isFolder : (store.folder? ((current.join arguments.workspace).join path)).isSome = true)
    {selection : Selection} (isWorkspace : selection.workspace = current.join arguments.workspace)
    (given : selection.outDir = some ((current.join arguments.workspace).join outDir)) :
    selection.filesAt (run store current arguments).1 path = selection.filesAt store path := by
  have written := written_run planned
  have absolute (other : Path) : ((current.join arguments.workspace).join other).isAbsolute = true :=
    Path.isAbsolute_join down.isAbsolute_workspace
  obtain ⟨folder, found⟩ := Option.isSome_iff_exists.mp isFolder
  obtain ⟨located, there⟩ := FileStore.folder?_eq_some_iff.mp found
  have stays := FileStore.folder?_eq_some_iff.mpr
    ⟨written.locate located, written.isFolder there⟩
  obtain rfl := FileStore.eq_placeOf_of_locate located
  rw [← isWorkspace] at found stays
  rw [Selection.filesAt_of_folder? (tree.run current arguments) stays,
    Selection.filesAt_of_folder? tree found, isWorkspace]
  refine congrArg Except.ok (Selection.filesBelow_congr given (absolute outDir) (absolute path)
    (down.plain outDir List.mem_cons_self) (down.plain path (List.mem_cons_of_mem _ listed))
    tree.named (tree.run current arguments).named (written.filter_files
      (!(placeOf ((current.join arguments.workspace).join outDir)).isPrefixOf ·) ?_))
  rintro place ⟨source, mem, target⟩
  have below := (down.apart_of_isTarget tree.named planned mem target).1
  rw [List.isPrefixOf_iff_prefix.mpr below, Bool.not_true]

/-- The workspace of a run that finds files is a folder. -/
theorem folder?_workspace (down : arguments.LeadDownFrom base store current outDir)
    (folders : ∀ path ∈ arguments.paths,
      (store.folder? ((current.join arguments.workspace).join path)).isSome = true)
    (planned : Plan.ofArguments store current arguments = .ok plan) {source : Path}
    (mem : source ∈ plan.files) : store.folder? (current.join arguments.workspace) =
      some (placeOf (current.join arguments.workspace)) := by
  have rooted := down.isAbsolute_workspace
  obtain ⟨-, -, selection, -, -, -, found⟩ := Plan.exists_selection planned
  obtain ⟨path, listed, -⟩ := Selection.cases_of_mem_files found mem
  obtain ⟨folder, isFolder⟩ := Option.isSome_iff_exists.mp (folders path listed)
  exact FileStore.folder?_of_prefix isFolder
    ((Path.isWithin_iff (Path.isAbsolute_join rooted) rooted).mp (down.within path listed))

/-- Nothing goes to an entry of the workspace itself, such as its configuration. -/
theorem ne_entry_of_isTarget (down : arguments.LeadDownFrom base store current outDir)
    (tree : store.IsTree) (planned : Plan.ofArguments store current arguments = .ok plan)
    (isFolder : store.isFolder (placeOf (current.join arguments.workspace)) = true) {source : Path}
    (mem : source ∈ plan.files) {place : Place} (target : plan.job.IsTarget source place)
    (name : Text) : place ≠ placeOf (current.join arguments.workspace) ++ [name] := by
  rintro rfl
  have rooted := down.isAbsolute_workspace
  obtain ⟨isWorkspace, isOutDir, selection, -, -, -, found⟩ := Plan.exists_selection planned
  rw [down.given, Option.map_some] at isOutDir
  obtain ⟨-, absolute, within, apart⟩ := down.of_mem_files tree.named planned mem
  have below := (down.apart_of_isTarget tree.named planned mem target).1
  rcases List.prefix_concat_iff.mp below with same | above
  · -- The folder for processed files itself has that name, and nothing goes to its place.
    obtain ⟨place, located, there⟩ := Selection.exists_of_mem_files tree found mem
    refine Job.ne_of_isTarget isOutDir absolute (isWorkspace ▸ rooted) within
      (down.isPlain_relativeTo tree.named planned mem) ?_ target same.symm
    intro atWorkspace
    rw [isWorkspace] at atWorkspace
    rw [FileStore.eq_placeOf_of_locate located, placeOf, ← Path.foldl_enter_steps, atWorkspace,
      Path.foldl_enter_steps, ← placeOf, tree.content?_of_isFolder isFolder] at there
    cases there
  · have above := (Path.placeOf_prefix_iff down.plainWorkspace
      (down.plain outDir List.mem_cons_self)).mp above
    rw [isWorkspace, Path.isWithin_iff absolute rooted] at within
    rw [(Path.isWithin_iff absolute (Path.isAbsolute_join rooted)).mpr (above.trans within)] at apart
    cases apart

/-- A run leaves the configuration that it read. -/
theorem file?_configPath_run_eq (down : arguments.LeadDownFrom base store current outDir)
    (tree : store.IsTree)
    (folders : ∀ path ∈ arguments.paths,
      (store.folder? ((current.join arguments.workspace).join path)).isSome = true)
    (configured : ∀ path ∈ arguments.config,
      ¬ placeOf ((current.join arguments.workspace).join outDir) <+:
        placeOf ((current.join arguments.workspace).join path))
    (planned : Plan.ofArguments store current arguments = .ok plan) :
    (run store current arguments).1.file?
        (arguments.configPath (current.join arguments.workspace)) =
      store.file? (arguments.configPath (current.join arguments.workspace)) := by
  have written := written_run planned
  -- A run without files writes nothing, not even folders.
  cases files : plan.files with
  | nil => rw [run_eq_of_files_eq_nil planned files]
  | cons source rest =>
    cases named : arguments.config with
    | some path =>
      simp only [configPath, named, Option.getD_some]
      obtain ⟨config, read⟩ := Plan.exists_config planned
      rw [named] at read
      have there := Config.isSome_file?_of_find read
      cases located : store.locate ((current.join arguments.workspace).join path) with
      | none =>
        rw [FileStore.file?, located] at there
        cases there
      | some place =>
        refine written.file?_eq located ?_
        rintro ⟨other, mem, target⟩
        apply configured path named
        rw [← FileStore.eq_placeOf_of_locate located]
        exact (down.apart_of_isTarget tree.named planned mem target).1
    | none =>
      simp only [configPath, named, Option.getD_none]
      have isFolder := down.folder?_workspace folders planned (files ▸ List.mem_cons_self)
      have entry : IsEntry "deep-classes.json".toList := by
        unfold IsEntry
        decide
      refine written.file?_eq (FileStore.locate_join isFolder entry) ?_
      rintro ⟨other, mem, target⟩
      exact down.ne_entry_of_isTarget tree planned
        (FileStore.folder?_eq_some_iff.mp isFolder).2 mem target _ rfl

end Arguments.LeadDownFrom

/-- **A run does not count what an earlier one wrote.** If all paths are folders, and lead down but for
some first steps that they have in common, and if the configuration does not lie where processed files
go, then the run with the same arguments after a run is planned in the same way: with the same
configuration and the same files. -/
theorem plan_run_eq {base : List Text} (tree : store.IsTree)
    (down : arguments.LeadDownFrom base store current outDir)
    (folders : ∀ path ∈ arguments.paths,
      (store.folder? ((current.join arguments.workspace).join path)).isSome = true)
    (configured : ∀ path ∈ arguments.config,
      ¬ placeOf ((current.join arguments.workspace).join outDir) <+:
        placeOf ((current.join arguments.workspace).join path))
    (planned : Plan.ofArguments store current arguments = .ok plan) :
    Plan.ofArguments (run store current arguments).1 current arguments = .ok plan := by
  rw [← planned]
  apply Plan.ofArguments_congr
  · exact Config.find_congr (down.file?_configPath_run_eq tree folders configured planned)
  · intro selection isWorkspace isOutDir
    rw [down.given, Option.map_some] at isOutDir
    exact Selection.files_congr fun path listed =>
      down.filesAt_run_eq tree planned listed (folders path listed) isWorkspace isOutDir

/-- The store with the two components is a tree of files. -/
theorem isTree_twoCards : twoCards.IsTree where
  named := by
    unfold FileStore.Named IsEntry
    decide +kernel
  fileInside := by decide +kernel
  folderInside := by decide +kernel
  apart := by decide +kernel

/-- The component is written where outputs go, and a second run has the same plan. -/
theorem plan_run_eq_twoCards :
    ∃ plan, Plan.ofArguments twoCards (Path.ofString "/ws") (writeInto "." "out") = .ok plan ∧
      (run twoCards (Path.ofString "/ws") (writeInto "." "out")).1.content?
        ["ws".toList, "out".toList, "A.svelte".toList] = some (.text movedCard) ∧
      Plan.ofArguments (run twoCards (Path.ofString "/ws") (writeInto "." "out")).1
        (Path.ofString "/ws") (writeInto "." "out") = .ok plan := by
  obtain ⟨plan, report, planned, files, after, -⟩ :=
    run_of_card (Path.ofString "/ws") (writeInto "." "out") (Path.ofString "/ws/././A.svelte")
      (Path.ofString "/ws/./out")
      (by decide +kernel) (by decide +kernel) (by decide +kernel)
  refine ⟨plan, planned, ?_, ?_⟩
  · rw [after]
    decide +kernel
  · exact plan_run_eq isTree_twoCards leadDown_twoCards.fromRoot (by decide +kernel) (by simp [writeInto])
      planned

/-- A run whose output folder is spelled with a part that leads up finds its own output the next
time, although it wrote everything and its only path is a folder. -/
theorem run_collects_outputs :
    (twoCards.folder? ((Path.ofString "/ws").join (Path.ofString "."))).isSome = true ∧
      ∃ report, (run twoCards (Path.ofString "/ws") (writeInto "." "sub/../out")).2 = .ok [report] ∧
        report.failure? = none ∧
      ∃ plan again, plan.files = [Path.ofString "/ws/././A.svelte"] ∧
        Plan.ofArguments twoCards (Path.ofString "/ws") (writeInto "." "sub/../out") = .ok plan ∧
        Plan.ofArguments (run twoCards (Path.ofString "/ws") (writeInto "." "sub/../out")).1
          (Path.ofString "/ws") (writeInto "." "sub/../out") = .ok again ∧
        ∃ file ∈ again.files, file.parts = (Path.ofString "/ws/out/A.svelte").parts := by
  obtain ⟨plan, report, planned, files, after, reported, written⟩ :=
    run_of_card (Path.ofString "/ws") (writeInto "." "sub/../out")
      (Path.ofString "/ws/././A.svelte") (Path.ofString "/ws/./sub/../out")
      (by decide +kernel) (by decide +kernel) (by decide +kernel)
  have isFound : ((Selection.ofArguments
        (run twoCards (Path.ofString "/ws") (writeInto "." "sub/../out")).1 (Path.ofString "/ws")
        (writeInto "." "sub/../out")).toOption.bind fun selection =>
      (selection.filesAtAll (run twoCards (Path.ofString "/ws") (writeInto "." "sub/../out")).1
        (writeInto "." "sub/../out").paths).toOption) =
      some [Path.ofString "/ws/././out/A.svelte", Path.ofString "/ws/././A.svelte"] := by
    rw [after]
    decide +kernel
  obtain ⟨again, repeated, found⟩ := Plan.exists_of_filesAtAll isFound
  have collected : Path.ofString "/ws/././out/A.svelte" ∈
    [Path.ofString "/ws/././out/A.svelte", Path.ofString "/ws/././A.svelte"] := List.mem_cons_self
  obtain ⟨file, listed, same⟩ := Path.exists_mem_arrange collected
  exact ⟨by decide +kernel, report, reported, written, plan, again, files, planned, repeated, file,
    found ▸ listed, same⟩

end ClassHoist
