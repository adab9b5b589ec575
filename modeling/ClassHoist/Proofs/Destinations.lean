import ClassHoist.Proofs.Hoisting
import ClassHoist.Proofs.Paths
import Mathlib.Data.List.Infix

/-! # Where processed files go

A run writes only where the paths of its files, as seen from the workspace, lead from the folder for
processed files. That is below this folder as long as no path leads up or is absolute there: a file
that is not below the workspace by its spelling is seen as it was named, and the file it is turned
into goes wherever that leads, so a source can be overwritten.
-/

namespace ClassHoist

open Command

namespace FileStore

variable {allowed wider : Place → Prop} {before between after : FileStore}

/-- A store that comes from another one by adding folders, and by writing files only at some
places. -/
inductive Written (allowed : Place → Prop) (before : FileStore) : FileStore → Prop where
  | same : Written allowed before before
  | folder {after : FileStore} (place : Place) (earlier : Written allowed before after) :
      Written allowed before (after.addFolder place)
  | file {after : FileStore} {place : Place} (content : Content) (admitted : allowed place)
      (earlier : Written allowed before after) : Written allowed before (after.put place content)

/-- A store written to twice was written to. -/
theorem Written.trans (first : Written allowed before between)
    (second : Written allowed between after) : Written allowed before after := by
  induction second with
  | same => exact first
  | folder place _ ih => exact ih.folder place
  | file content admitted _ ih => exact ih.file content admitted

/-- A store was written to at more places if more are allowed. -/
theorem Written.mono (wide : ∀ place, allowed place → wider place)
    (written : Written allowed before after) : Written wider before after := by
  induction written with
  | same => exact .same
  | folder place _ ih => exact ih.folder place
  | file content admitted _ ih => exact ih.file content (wide _ admitted)

/-- Writing a file leaves the others. -/
theorem content?_put_of_ne (store : FileStore) (content : Content) {place target : Place}
    (differ : place ≠ target) : (store.put target content).content? place = store.content? place := by
  have missed : (place == target) = false := beq_eq_false_iff_ne.mpr differ
  simp only [content?, put, List.lookup_cons, missed]
  induction store.files with
  | nil => rfl
  | cons entry rest ih =>
    by_cases gone : entry.1 = target
    · rw [List.filter_cons_of_neg (by simpa using gone), ih, List.lookup_cons, gone, missed]
    · rw [List.filter_cons_of_pos (by simpa using gone), List.lookup_cons, List.lookup_cons, ih]

/-- Everywhere else the files are what they were. -/
theorem Written.content?_eq (written : Written allowed before after) {place : Place}
    (other : ¬ allowed place) : after.content? place = before.content? place := by
  induction written with
  | same => rfl
  | folder _ _ ih => exact ih
  | @file after target content admitted _ ih =>
    have differ : place ≠ target := fun same => other (same ▸ admitted)
    rw [content?_put_of_ne after content differ, ih]

/-- Making folders writes no file. -/
theorem written_makeFolders (store : FileStore) (place : Place) (segments : List Text) :
    Written allowed store (store.makeFolders place segments).1 := by
  fun_induction makeFolders store place segments with
  | case1 => exact .same
  | case2 store place segment rest next there ih => exact ih
  | case3 store place segment rest next missing free ih =>
    exact (Written.same.folder next).trans ih
  | case4 => exact .same

/-- The folder that is made is where the segments lead. -/
theorem eq_foldl_of_makeFolders {store : FileStore} {place folder : Place} {segments : List Text}
    (made : (store.makeFolders place segments).2 = some folder) :
    folder = segments.foldl Place.enter place := by
  fun_induction makeFolders store place segments with
  | case1 store place => exact (Option.some.inj made).symm
  | case2 store place segment rest next there ih => exact ih made
  | case3 store place segment rest next missing free ih => exact ih made
  | case4 => cases made

/-- Writing to a path writes at most the file that it leads to. -/
theorem written_write (store : FileStore) (path : Path) (content : Content) :
    Written (· = placeOf path) store (store.write path content).1 := by
  have folders : Written (· = placeOf path) store (store.makeFolders [] path.segments.dropLast).1 :=
    written_makeFolders store [] path.segments.dropLast
  unfold write
  simp only
  split
  case h_1 after made =>
    rw [made] at folders
    exact folders
  case h_2 after folder made =>
    rw [made] at folders
    split
    · exact folders
    · apply folders.file
      have isFolder := eq_foldl_of_makeFolders (congrArg Prod.snd made)
      obtain ⟨lead, last, whole⟩ : ∃ lead last, path.segments = lead ++ [last] :=
        ⟨_, _, (List.dropLast_concat_getLast (Text.splitOn_ne_nil '/' path.spelling)).symm⟩
      rw [placeOf, whole, List.foldl_append]
      rw [whole, List.dropLast_concat] at isFolder
      simp [isFolder]

/-- A path that is located leads to its place. -/
theorem eq_placeOf_of_locate {store : FileStore} {path : Path} {place : Place}
    (located : store.locate path = some place) : place = placeOf path := by
  have steps : ∀ (segments : List Text) (start : Place),
      store.follow start segments = some place → place = segments.foldl Place.enter start := by
    intro segments start followed
    induction segments generalizing start with
    | nil => exact (Option.some.inj followed).symm
    | cons segment rest ih =>
      simp only [follow] at followed
      split at followed
      · exact ih _ followed
      · cases followed
  exact steps _ _ located

end FileStore

namespace Job

variable {job : Job} {file : Path} {place : Place}

/-- A place that what a file is turned into, or the source map of that, is written to. -/
def IsTarget (job : Job) (file : Path) (place : Place) : Prop :=
  ∃ outDir, job.outDir = some outDir ∧
    (place = placeOf (outDir.join (file.relativeTo job.workspace)) ∨
      place = placeOf ((outDir.join (file.relativeTo job.workspace)).extend ".map".toList))

/-- Writing text changes the store as writing its content does. -/
theorem writeText_fst (store : FileStore) (path : Path) (text : Text) :
    (writeText store path text).1 = (store.write path (.text text)).1 := by
  unfold writeText
  split <;> simp_all

/-- What a file is turned into is written to its targets only. -/
theorem written_writeOutput (job : Job) (store : FileStore) (file : Path) (hoisted : Hoisted) :
    FileStore.Written (job.IsTarget file) store
      (job.writeOutput store (file.relativeTo job.workspace) hoisted).1 := by
  unfold writeOutput
  cases where_ : job.outDir with
  | none => exact .same
  | some outDir =>
    have text := FileStore.written_write store (outDir.join (file.relativeTo job.workspace))
      (.text hoisted.code)
    have first : FileStore.Written (job.IsTarget file) store _ :=
      text.mono fun _ same => ⟨outDir, where_, .inl same⟩
    rw [← writeText_fst] at first
    simp only
    split
    case h_1 after failure same =>
      rw [same] at first
      exact first
    case h_2 after same =>
      rw [same] at first
      split
      · apply first.trans
        rw [writeText_fst]
        exact (FileStore.written_write _ _ _).mono fun _ same => ⟨outDir, where_, .inr same⟩
      · exact first

/-- Processing a file writes at most its targets. -/
theorem written_process (job : Job) (store : FileStore) (file : Path) :
    FileStore.Written (job.IsTarget file) store (job.process store file).1 := by
  unfold process
  simp only
  split
  · exact .same
  · split
    · exact .same
    · next hoisted _ =>
      have output := written_writeOutput job store file hoisted
      split <;> simp_all

/-- **Processing files writes only where they lead from the folder for processed files.** -/
theorem written_processAll (job : Job) (store : FileStore) (files : List Path) :
    FileStore.Written (fun place => ∃ file ∈ files, job.IsTarget file place) store
      (job.processAll store files).1 := by
  induction files generalizing store with
  | nil => exact .same
  | cons file rest ih =>
    have first : FileStore.Written (fun place => ∃ other ∈ file :: rest, job.IsTarget other place)
        store (job.process store file).1 :=
      (written_process job store file).mono fun _ target => ⟨file, List.mem_cons_self, target⟩
    apply first.trans
    apply (ih (job.process store file).1).mono
    rintro _ ⟨later, mem, target⟩
    exact ⟨later, List.mem_cons_of_mem _ mem, target⟩

/-- A file below the workspace by its spelling goes where its steps from the workspace lead from the
folder for processed files, and its source map beside it. -/
theorem eq_append_of_isTarget {outDir : Path} (given : job.outDir = some outDir)
    (absolute : file.isAbsolute = true) (rooted : job.workspace.isAbsolute = true)
    (within : file.isWithin job.workspace = true)
    (plain : (file.relativeTo job.workspace).IsPlain) (target : job.IsTarget file place) :
    ∃ rest, place = placeOf outDir ++ rest ∧ (rest = (file.relativeTo job.workspace).steps ∨
      rest = ((file.relativeTo job.workspace).extend ".map".toList).steps) := by
  have relative := (Path.steps_relativeTo absolute rooted within).2
  obtain ⟨outDir', given', rfl | rfl⟩ := target
  · obtain rfl := Option.some.inj (given.symm.trans given')
    exact ⟨_, Path.placeOf_join outDir relative plain, .inl rfl⟩
  · obtain rfl := Option.some.inj (given.symm.trans given')
    have noSlash : '/' ∉ ".map".toList := by decide
    have longer := Path.isAbsolute_extend relative noSlash
    rw [Path.extend_join relative longer]
    exact ⟨_, Path.placeOf_join outDir longer (Path.isPlain_extend plain noSlash (by decide)),
      .inr rfl⟩

/-- Nothing goes to the folder for processed files itself. -/
theorem ne_of_isTarget {outDir : Path} (given : job.outDir = some outDir)
    (absolute : file.isAbsolute = true) (rooted : job.workspace.isAbsolute = true)
    (within : file.isWithin job.workspace = true)
    (plain : (file.relativeTo job.workspace).IsPlain) (inside : file.steps ≠ job.workspace.steps)
    (target : job.IsTarget file place) : place ≠ placeOf outDir := by
  obtain ⟨rest, rfl, isRest⟩ := eq_append_of_isTarget given absolute rooted within plain target
  intro same
  obtain rfl := List.append_right_eq_self.mp same
  rcases isRest with isRest | isRest
  · apply inside
    rw [(Path.steps_relativeTo absolute rooted within).1, ← isRest, List.append_nil]
  · exact Path.steps_extend_ne_nil _ (by decide) (by decide) isRest.symm

end Job

/-- A folder can have an entry of this name. -/
def IsEntry (name : Text) : Prop := Path.isIdle name = false ∧ name ≠ ['.', '.'] ∧ '/' ∉ name

/-- All files of a store lie where names lead. -/
def FileStore.Named (store : FileStore) : Prop :=
  ∀ entry ∈ store.files, ∀ name ∈ entry.1, IsEntry name

/-- The name of an entry is a path of one step. -/
theorem IsEntry.steps {name : Text} (entry : IsEntry name) : Path.steps ⟨name⟩ = [name] := by
  simp [Path.steps, Path.segments, Text.splitOn_eq_singleton entry.2.2, entry.1]

/-- The name of an entry is no absolute path. -/
theorem IsEntry.isAbsolute {name : Text} (entry : IsEntry name) :
    Path.isAbsolute ⟨name⟩ = false := by
  cases start : Path.isAbsolute ⟨name⟩ with
  | false => rfl
  | true => exact absurd (List.mem_of_mem_head? (beq_iff_eq.mp start)) entry.2.2

/-- The path of a file below a folder has the steps of the folder's path and the names below. -/
theorem steps_foldl_join {names : Place} (entries : ∀ name ∈ names, IsEntry name) (path : Path) :
    (names.foldl (fun path name => path.join ⟨name⟩) path).steps = path.steps ++ names := by
  induction names generalizing path with
  | nil => exact (List.append_nil _).symm
  | cons name rest ih =>
    have entry := entries name List.mem_cons_self
    rw [List.foldl_cons, ih (fun name mem => entries name (List.mem_cons_of_mem _ mem)),
      Path.steps_join entry.isAbsolute, entry.steps, List.append_assoc, List.singleton_append]

/-- A path stays absolute with names joined to it. -/
theorem isAbsolute_foldl_join (names : Place) {path : Path} (absolute : path.isAbsolute = true) :
    (names.foldl (fun path name => path.join ⟨name⟩) path).isAbsolute = true := by
  induction names generalizing path with
  | nil => exact absolute
  | cons name rest ih => exact ih (Path.isAbsolute_join absolute)

/-- Files found below a folder have names that entries can have. -/
theorem FileStore.Named.entries_of_mem_filesBelow {store : FileStore} (named : store.Named)
    {folder names : Place} (mem : names ∈ store.filesBelow folder) :
    ∀ name ∈ names, IsEntry name := by
  obtain ⟨⟨place, content⟩, listed, below⟩ := List.mem_filterMap.mp mem
  obtain rfl := List.isPrefixOf?_eq_some_iff_append_eq.mp below
  intro name inner
  exact named _ listed name (List.mem_append_right _ inner)

namespace Selection

variable {selection : Selection} {store : FileStore} {paths : List Path} {files : List Path}
  {file : Path}

/-- A file that is found is found at one of the paths. -/
theorem exists_of_mem_filesAtAll (found : selection.filesAtAll store paths = .ok files)
    (mem : file ∈ files) :
    ∃ path ∈ paths, ∃ part, selection.filesAt store path = .ok part ∧ file ∈ part := by
  induction paths generalizing files with
  | nil =>
    cases found
    cases mem
  | cons path rest ih =>
    simp only [filesAtAll] at found
    cases first : selection.filesAt store path with
    | error error =>
      rw [first] at found
      cases found
    | ok part =>
      cases later : selection.filesAtAll store rest with
      | error error =>
        rw [first, later] at found
        cases found
      | ok others =>
        rw [first, later] at found
        cases found
        rcases List.mem_append.mp mem with here | there
        · exact ⟨path, List.mem_cons_self, part, first, here⟩
        · obtain ⟨other, listed, same⟩ := ih later there
          exact ⟨other, List.mem_cons_of_mem _ listed, same⟩

/-- A file of a run is one that is named, or lies below a folder that is named and counts. -/
theorem cases_of_mem_files (found : selection.files store paths = .ok files) (mem : file ∈ files) :
    ∃ path ∈ paths, (file = selection.workspace.join path ∧ (store.file? file).isSome) ∨
      ∃ folder, store.folder? (selection.workspace.join path) = some folder ∧
        ∃ names ∈ store.filesBelow folder,
          file = names.foldl (fun path name => path.join ⟨name⟩) (selection.workspace.join path) ∧
            selection.keeps (names.getLastD []) file = true := by
  simp only [Selection.files] at found
  cases all : selection.filesAtAll store paths with
  | error error =>
    rw [all] at found
    cases found
  | ok unsorted =>
    rw [all] at found
    cases found
    obtain ⟨path, listed, part, isPart, here⟩ :=
      exists_of_mem_filesAtAll all (Path.mem_of_mem_arrange mem)
    refine ⟨path, listed, ?_⟩
    simp only [filesAt] at isPart
    split at isPart
    case isTrue there =>
      cases isPart
      obtain rfl := List.mem_singleton.mp here
      exact .inl ⟨rfl, there⟩
    case isFalse =>
      split at isPart
      case h_1 folder isFolder =>
        cases isPart
        obtain ⟨names, below, kept⟩ := List.mem_filterMap.mp here
        simp only at kept
        split at kept
        case isTrue keeps =>
          cases kept
          exact .inr ⟨folder, isFolder, names, below, rfl, keeps⟩
        case isFalse => cases kept
      case h_2 => cases isPart

end Selection

variable {store : FileStore} {current outDir : Path} {arguments : Arguments} {plan : Plan}

/-- Which files below a folder count for the arguments. -/
def Selection.ofArguments (store : FileStore) (current : Path) (arguments : Arguments) :
    Except RunError Selection := do
  let workspace := current.join arguments.workspace
  let config ← Config.find store workspace arguments.config
  let ignored ← globsOf (arguments.ignore ++ config.ignore ++ usualIgnores)
  return ⟨workspace, config.fileExtensions, ignored, arguments.outDir.map workspace.join⟩

/-- What a plan takes from the arguments. -/
theorem Plan.exists_selection (planned : Plan.ofArguments store current arguments = .ok plan) :
    plan.job.workspace = current.join arguments.workspace ∧
      plan.job.outDir = arguments.outDir.map (current.join arguments.workspace).join ∧
        ∃ selection, Selection.ofArguments store current arguments = .ok selection ∧
          selection.workspace = plan.job.workspace ∧ selection.outDir = plan.job.outDir ∧
            selection.files store arguments.paths = .ok plan.files := by
  simp only [Plan.ofArguments, bind, Except.bind, pure, Except.pure] at planned
  split at planned
  · cases planned
  · next config isConfig =>
    split at planned
    · cases planned
    · next ignored isIgnored =>
      split at planned
      · cases planned
      · next found =>
        cases planned
        refine ⟨rfl, rfl, ⟨_, config.fileExtensions, ignored, _⟩, ?_, rfl, rfl, found⟩
        simp only [Selection.ofArguments, bind, Except.bind, pure, Except.pure, isConfig, isIgnored]

/-- The files of a plan are those that its selection finds, in order. -/
theorem Plan.exists_of_filesAtAll {found : List Path}
    (isFound : ((Selection.ofArguments store current arguments).toOption.bind fun selection =>
      (selection.filesAtAll store arguments.paths).toOption) = some found) :
    ∃ plan, Plan.ofArguments store current arguments = .ok plan ∧
      plan.files = Path.arrange found := by
  obtain ⟨selection, isSelection, all⟩ := Option.bind_eq_some_iff.mp isFound
  simp only [Selection.ofArguments, bind, Except.bind, pure, Except.pure] at isSelection
  split at isSelection
  · cases isSelection
  · next config isConfig =>
    split at isSelection
    · cases isSelection
    · next ignored isIgnored =>
      obtain rfl := Option.some.inj isSelection
      cases reached : Selection.filesAtAll _ store arguments.paths with
      | error error =>
        rw [reached] at all
        cases all
      | ok files =>
        rw [reached] at all
        obtain rfl := Option.some.inj all
        simp only [Plan.ofArguments, bind, Except.bind, pure, Except.pure, isConfig, isIgnored,
          Selection.files, reached, Except.map]
        exact ⟨_, rfl, rfl⟩

/-- **A run writes only where its files lead from the folder for processed files.** -/
theorem written_run (planned : Plan.ofArguments store current arguments = .ok plan) :
    FileStore.Written (fun place => ∃ file ∈ plan.files, plan.job.IsTarget file place) store
      (run store current arguments).1 := by
  unfold run
  rw [planned]
  exact plan.job.written_processAll store plan.files

/-- Arguments whose paths lead down from the workspace, so that what lies where can be told by the
spelling of paths: processed files are to be written, the current folder is known by its whole path,
no path leads up, what is named lies below the workspace, and no file that is named lies where
processed files go. -/
structure Arguments.LeadDown (store : FileStore) (current outDir : Path) (arguments : Arguments) :
    Prop where
  given : arguments.outDir = some outDir
  absolute : current.isAbsolute = true
  plain : ∀ path ∈ current :: arguments.workspace :: outDir :: arguments.paths, path.IsPlain
  within : ∀ path ∈ arguments.paths,
    ((current.join arguments.workspace).join path).isWithin (current.join arguments.workspace)
  apart : ∀ path ∈ arguments.paths,
    (store.file? ((current.join arguments.workspace).join path)).isSome →
      ((current.join arguments.workspace).join path).isWithin
        ((current.join arguments.workspace).join outDir) = false

/-- Arguments whose paths lead down, but for some first steps that they have in common. The
workspace and the other paths only lead down from there; what is named lies below the workspace, and
no file that is named where processed files go. -/
structure Arguments.LeadDownFrom (base : List Text) (store : FileStore) (current outDir : Path)
    (arguments : Arguments) : Prop where
  given : arguments.outDir = some outDir
  absolute : current.isAbsolute = true
  plainWorkspace : (current.join arguments.workspace).IsPlainFrom base
  plain : ∀ path ∈ outDir :: arguments.paths,
    ((current.join arguments.workspace).join path).IsPlainFrom base
  within : ∀ path ∈ arguments.paths,
    ((current.join arguments.workspace).join path).isWithin (current.join arguments.workspace)
  apart : ∀ path ∈ arguments.paths,
    (store.file? ((current.join arguments.workspace).join path)).isSome →
      ((current.join arguments.workspace).join path).isWithin
        ((current.join arguments.workspace).join outDir) = false

/-- Paths that lead down, lead down from the root. -/
theorem Arguments.LeadDown.fromRoot (down : arguments.LeadDown store current outDir) :
    arguments.LeadDownFrom [] store current outDir := by
  have workspace := Path.isPlain_join (down.plain current (by simp))
    (down.plain arguments.workspace (by simp))
  refine ⟨down.given, down.absolute, workspace.isPlainFrom, ?_, down.within, down.apart⟩
  intro path listed
  have plain : path.IsPlain := down.plain path (by
    rcases List.mem_cons.mp listed with rfl | listed <;> simp_all)
  exact (Path.isPlain_join workspace plain).isPlainFrom

namespace Arguments.LeadDownFrom

variable {base : List Text}

/-- If paths lead down, the workspace is an absolute path. -/
theorem isAbsolute_workspace (down : arguments.LeadDownFrom base store current outDir) :
    (current.join arguments.workspace).isAbsolute = true :=
  Path.isAbsolute_join down.absolute

/-- The files of a run lie below the workspace by their spelling, and not where processed files
go. -/
theorem of_mem_files (down : arguments.LeadDownFrom base store current outDir)
    (named : store.Named) (planned : Plan.ofArguments store current arguments = .ok plan)
    {file : Path} (mem : file ∈ plan.files) :
    file.IsPlainFrom base ∧ file.isAbsolute = true ∧ file.isWithin plan.job.workspace = true ∧
      file.isWithin ((current.join arguments.workspace).join outDir) = false := by
  obtain ⟨isWorkspace, isOutDir, selection, -, sameWorkspace, sameOutDir, found⟩ :=
    Plan.exists_selection planned
  rw [isWorkspace] at sameWorkspace ⊢
  rw [isOutDir, down.given, Option.map_some] at sameOutDir
  have rooted := down.isAbsolute_workspace
  obtain ⟨path, listed, ⟨rfl, there⟩ | ⟨_, -, names, below, rfl, keeps⟩⟩ :=
    Selection.cases_of_mem_files found mem
  all_goals
    rw [sameWorkspace] at *
    have plain := down.plain path (List.mem_cons_of_mem _ listed)
    have absolute : ((current.join arguments.workspace).join path).isAbsolute = true :=
      Path.isAbsolute_join rooted
    have within := down.within path listed
  · exact ⟨plain, absolute, within, down.apart path listed there⟩
  · have entries := named.entries_of_mem_filesBelow below
    have steps := steps_foldl_join entries ((current.join arguments.workspace).join path)
    have whole := isAbsolute_foldl_join names absolute
    refine ⟨plain.append steps fun up => (entries _ up).2.1 rfl, whole, ?_, ?_⟩
    · rw [Path.isWithin_iff absolute rooted] at within
      rw [Path.isWithin_iff whole rooted, steps]
      exact within.trans (List.prefix_append _ _)
    · simp only [Selection.keeps, sameOutDir, Option.any_some, Bool.and_eq_true,
        Bool.not_eq_true'] at keeps
      exact keeps.1.2

/-- As seen from the workspace, the files of a run do not lead up. -/
theorem isPlain_relativeTo (down : arguments.LeadDownFrom base store current outDir)
    (named : store.Named) (planned : Plan.ofArguments store current arguments = .ok plan)
    {file : Path} (mem : file ∈ plan.files) : (file.relativeTo plan.job.workspace).IsPlain := by
  obtain ⟨plain, absolute, within, -⟩ := down.of_mem_files named planned mem
  rw [(Plan.exists_selection planned).1] at within ⊢
  exact Path.isPlain_relativeTo plain down.plainWorkspace absolute down.isAbsolute_workspace within

/-- Where the files of a run go is below the folder for processed files, and not where any of them
is. -/
theorem apart_of_isTarget (down : arguments.LeadDownFrom base store current outDir)
    (named : store.Named) (planned : Plan.ofArguments store current arguments = .ok plan)
    {source : Path} {place : Place} (mem : source ∈ plan.files)
    (target : plan.job.IsTarget source place) :
    placeOf ((current.join arguments.workspace).join outDir) <+: place ∧
      ∀ file ∈ plan.files, store.locate file ≠ some place := by
  have rooted := down.isAbsolute_workspace
  obtain ⟨isWorkspace, isOutDir, -⟩ := Plan.exists_selection planned
  rw [down.given, Option.map_some] at isOutDir
  obtain ⟨-, absolute, within, -⟩ := down.of_mem_files named planned mem
  obtain ⟨rest, rfl, -⟩ := Job.eq_append_of_isTarget isOutDir absolute (isWorkspace ▸ rooted) within
    (down.isPlain_relativeTo named planned mem) target
  refine ⟨List.prefix_append _ _, ?_⟩
  intro file mem located
  obtain ⟨plain, absolute, -, apart⟩ := down.of_mem_files named planned mem
  have below := (Path.placeOf_prefix_iff plain (down.plain outDir List.mem_cons_self)).mp
    (FileStore.eq_placeOf_of_locate located ▸ List.prefix_append _ _)
  rw [← Path.isWithin_iff absolute (Path.isAbsolute_join rooted), apart] at below
  cases below

end Arguments.LeadDownFrom

/-- A run changes what one of the files that it processes holds. -/
def ChangesInput (store : FileStore) (current : Path) (arguments : Arguments) (place : Place) :
    Prop :=
  ∃ plan, Plan.ofArguments store current arguments = .ok plan ∧
    (∃ file ∈ plan.files, store.locate file = some place) ∧
      (run store current arguments).1.content? place ≠ store.content? place

/-- **Inputs are safe if paths lead down.** All files that a run creates or overwrites lie below the
folder for processed files, and none of them is one of the files that it processes. So no run changes
what one of these holds. -/
theorem run_writes_apart (named : store.Named) (down : arguments.LeadDown store current outDir)
    (planned : Plan.ofArguments store current arguments = .ok plan) :
    FileStore.Written (fun place =>
        placeOf ((current.join arguments.workspace).join outDir) <+: place ∧
          ∀ file ∈ plan.files, store.locate file ≠ some place)
      store (run store current arguments).1 ∧
      ∀ place, ¬ ChangesInput store current arguments place := by
  have written : FileStore.Written (fun place =>
      placeOf ((current.join arguments.workspace).join outDir) <+: place ∧
        ∀ file ∈ plan.files, store.locate file ≠ some place)
      store (run store current arguments).1 := by
    apply (written_run planned).mono
    rintro place ⟨source, mem, target⟩
    exact down.fromRoot.apart_of_isTarget named planned mem target
  refine ⟨written, ?_⟩
  rintro place ⟨plan', planned', ⟨file, mem, located⟩, changed⟩
  obtain rfl : plan = plan' := Except.ok.inj (planned.symm.trans planned')
  exact changed (written.content?_eq fun reached => reached.2 file mem located)

/-- A component in a workspace, and another one beside the workspace. -/
def twoCards : FileStore where
  files := [(["ws".toList, "A.svelte".toList], .text card), (["B.svelte".toList], .text card)]
  folders := [["ws".toList], ["ws".toList, "sub".toList]]

/-- Arguments that write what is at a path into a folder. -/
def writeInto (path outDir : String) : Arguments where
  paths := [Path.ofString path]
  workspace := Path.ofString "."
  rtl := false
  globalPrefix := false
  config := none
  outDir := some (Path.ofString outDir)
  sourceMap := false
  ignore := []
  output := .human
  verbosity := 0

/-- What the component is turned into. -/
def movedCard : Text :=
  "<A class=deep_b/><style> :global(.deep_b) { @apply b; }</style>".toList

/-- The component is turned into the moved one. -/
theorem hoist_card_eq_movedCard (file : Option String) :
    ∃ map, hoist ⟨false, false⟩ card file = .ok ⟨movedCard, some map⟩ := by
  obtain ⟨map, done⟩ :=
    exists_hoist_of_read? (by decide) (by rfl) (by rfl) read?_card ⟨false, false⟩ file
  exact ⟨map, done.trans (by rfl)⟩

/-- A run that processes one component writes what it is turned into to its target. -/
theorem run_of_card (current : Path) (arguments : Arguments) (file outDir : Path)
    (planned : (Plan.ofArguments twoCards current arguments).toOption.map (fun plan =>
      (plan.files, plan.job.outDir, plan.job.options, plan.job.sourceMap)) =
        some ([file], some outDir, ⟨false, false⟩, false))
    (isCard : twoCards.text? file = some card)
    (written : (twoCards.write (outDir.join (file.relativeTo (current.join arguments.workspace)))
      (.text movedCard)).2 = true) :
    ∃ plan report, Plan.ofArguments twoCards current arguments = .ok plan ∧ plan.files = [file] ∧
      (run twoCards current arguments).1 =
        (twoCards.write (outDir.join (file.relativeTo (current.join arguments.workspace)))
          (.text movedCard)).1 ∧
      (run twoCards current arguments).2 = .ok [report] ∧ report.failure? = none := by
  cases isPlan : Plan.ofArguments twoCards current arguments with
  | error error =>
    rw [isPlan] at planned
    cases planned
  | ok plan =>
    rw [isPlan] at planned
    simp only [Except.toOption, Option.map_some, Option.some.injEq, Prod.mk.injEq] at planned
    obtain ⟨files, isOutDir, options, noMap⟩ := planned
    obtain ⟨map, done⟩ := hoist_card_eq_movedCard
      (some (String.ofList (file.relativeTo plan.job.workspace).spelling))
    rw [← options] at done
    rw [← (Plan.exists_selection isPlan).1] at written ⊢
    simp only [run, isPlan, files, Job.processAll, Job.process, isCard, done, Job.writeOutput,
      isOutDir, noMap, Job.writeText]
    cases stored : twoCards.write (outDir.join (file.relativeTo plan.job.workspace))
      (.text movedCard) with
    | mk after success =>
      rw [stored] at written
      obtain rfl : success = true := written
      exact ⟨plan, _, rfl, files, rfl, rfl, rfl⟩

/-- The paths in front of the two components lead down. -/
theorem leadDown_twoCards : (writeInto "." "out").LeadDown twoCards (Path.ofString "/ws")
    (Path.ofString "out") where
  given := rfl
  absolute := by decide
  plain := by unfold Path.IsPlain; decide +kernel
  within := by decide +kernel
  apart := by decide +kernel

/-- The component of the workspace is processed into a folder in it. -/
theorem run_writes_apart_twoCards :
    ∃ plan, Plan.ofArguments twoCards (Path.ofString "/ws") (writeInto "." "out") = .ok plan ∧
      plan.files ≠ [] ∧
      FileStore.Written (fun place =>
          placeOf (((Path.ofString "/ws").join (writeInto "." "out").workspace).join
              (Path.ofString "out")) <+: place ∧
            ∀ file ∈ plan.files, twoCards.locate file ≠ some place)
        twoCards (run twoCards (Path.ofString "/ws") (writeInto "." "out")).1 ∧
      ∀ place, ¬ ChangesInput twoCards (Path.ofString "/ws") (writeInto "." "out") place := by
  obtain ⟨plan, -, planned, files, -⟩ :=
    run_of_card (Path.ofString "/ws") (writeInto "." "out") (Path.ofString "/ws/././A.svelte")
      (Path.ofString "/ws/./out")
      (by decide +kernel) (by decide +kernel) (by decide +kernel)
  have named : twoCards.Named := by
    unfold FileStore.Named IsEntry
    decide +kernel
  exact ⟨plan, planned, by simp [files], run_writes_apart named leadDown_twoCards planned⟩

/-- An output folder that is the workspace, spelled with a part that leads up, does not keep sources
from being replaced; and a source outside the workspace is replaced wherever outputs are to go. -/
theorem run_replaces_sources :
    ChangesInput twoCards (Path.ofString "/ws") (writeInto "." "sub/..")
        ["ws".toList, "A.svelte".toList] ∧
      ChangesInput twoCards (Path.ofString "/ws") (writeInto "/B.svelte" "out")
        ["B.svelte".toList] ∧
      ¬ placeOf (Path.ofString "/ws/out") <+: ["B.svelte".toList] := by
  refine ⟨?_, ?_, by decide +kernel⟩
  · obtain ⟨plan, report, planned, files, after, -⟩ :=
      run_of_card (Path.ofString "/ws") (writeInto "." "sub/..")
        (Path.ofString "/ws/././A.svelte") (Path.ofString "/ws/./sub/..")
        (by decide +kernel) (by decide +kernel) (by decide +kernel)
    refine ⟨plan, planned, ⟨_, files ▸ List.mem_cons_self, by decide +kernel⟩, ?_⟩
    rw [after]
    decide +kernel
  · obtain ⟨plan, report, planned, files, after, -⟩ :=
      run_of_card (Path.ofString "/ws") (writeInto "/B.svelte" "out") (Path.ofString "/B.svelte")
        (Path.ofString "/ws/./out")
        (by decide +kernel) (by decide +kernel) (by decide +kernel)
    refine ⟨plan, planned, ⟨_, files ▸ List.mem_cons_self, by decide +kernel⟩, ?_⟩
    rw [after]
    decide +kernel

end ClassHoist
