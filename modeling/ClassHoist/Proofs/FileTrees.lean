import ClassHoist.Proofs.Destinations

/-! # Trees of files

In a file system everything lies in a folder, a folder is no file, and every name is one that an entry
can have. A run keeps that. What a path leads to before a run it leads to afterwards as well, and a file
holds what it held unless it is one of those that are written.
-/

namespace ClassHoist

open Command

/-- The names on the way to the place of a path are names of entries. -/
theorem isEntry_of_mem_placeOf {path : Path} {name : Text} (mem : name ∈ placeOf path) :
    IsEntry name := by
  have steps : ∀ (segments : List Text) (start : Place), (∀ segment ∈ segments, '/' ∉ segment) →
      (∀ name ∈ start, IsEntry name) → ∀ name ∈ segments.foldl Place.enter start, IsEntry name := by
    intro segments
    induction segments with
    | nil => exact fun _ _ entries => entries
    | cons segment rest ih =>
      intro start free entries
      refine ih _ (fun later mem => free later (List.mem_cons_of_mem _ mem)) ?_
      intro name mem
      simp only [Place.enter] at mem
      split at mem
      · exact entries name mem
      · next telling =>
        split at mem
        · exact entries name (List.mem_of_mem_dropLast mem)
        · next down =>
          rcases List.mem_append.mp mem with earlier | last
          · exact entries name earlier
          · obtain rfl := List.mem_singleton.mp last
            exact ⟨Bool.eq_false_iff.mpr telling, down, free _ List.mem_cons_self⟩
  exact steps path.segments [] (fun _ => Text.not_mem_of_mem_splitOn) (by simp) name mem

/-- An entry is entered below the folder. -/
theorem IsEntry.enter {name : Text} (entry : IsEntry name) (place : Place) :
    place.enter name = place ++ [name] := by
  simp only [Place.enter, entry.1, entry.2.1, Bool.false_eq_true, ↓reduceIte]

namespace FileStore

variable {store before after : FileStore} {allowed : Place → Prop} {place folder above : Place}
  {path : Path} {name : Text}

/-- A folder is the root, or one that was added. -/
theorem isFolder_iff : store.isFolder place = true ↔ place = [] ∨ place ∈ store.folders := by
  rw [isFolder, Bool.or_eq_true, List.isEmpty_iff, List.contains_iff_mem]

/-- Names one after another are followed one after another. -/
theorem follow_append (store : FileStore) (place : Place) (first second : List Text) :
    store.follow place (first ++ second) =
      (store.follow place first).bind (store.follow · second) := by
  induction first generalizing place with
  | nil => rfl
  | cons segment rest ih =>
    simp only [List.cons_append, follow]
    split
    · exact ih _
    · rfl

/-- The folder at a path is the place that the path leads to, if it is a folder. -/
theorem folder?_eq_some_iff :
    store.folder? path = some folder ↔ store.locate path = some folder ∧ store.isFolder folder := by
  rw [folder?, Option.filter_eq_some_iff]

/-- Segments that say nothing do not matter on the way to a folder. -/
theorem follow_filter (isFolder : store.isFolder folder = true) (start : Place)
    (segments : List Text) : store.follow start (segments.filter (!Path.isIdle ·)) = some folder ↔
      store.follow start segments = some folder := by
  induction segments generalizing start with
  | nil => rfl
  | cons segment rest ih =>
    cases idle : Path.isIdle segment with
    | false =>
      rw [List.filter_cons_of_pos (by simp [idle]), follow, follow]
      split
      · exact ih _
      · exact Iff.rfl
    | true =>
      have stays : start.enter segment = start := by simp only [Place.enter, idle, ↓reduceIte]
      rw [List.filter_cons_of_neg (by simp [idle]), ih, follow, stays]
      split
      · exact Iff.rfl
      · next noFolder =>
        refine ⟨fun followed => ?_, fun impossible => by cases impossible⟩
        cases rest with
        | nil =>
          obtain rfl := Option.some.inj followed
          exact absurd isFolder noFolder
        | cons next more =>
          rw [follow, if_neg noFolder] at followed
          cases followed

/-- What a path to a folder goes through are folders. -/
theorem folder?_of_prefix {upper : Path} (found : store.folder? path = some folder)
    (above : upper.steps <+: path.steps) : store.folder? upper = some (placeOf upper) := by
  obtain ⟨located, isFolder⟩ := folder?_eq_some_iff.mp found
  obtain ⟨rest, whole⟩ := above
  have followed := (follow_filter isFolder [] path.segments).mpr located
  rw [show path.segments.filter (!Path.isIdle ·) = upper.steps ++ rest from whole.symm,
    follow_append, Option.bind_eq_some_iff] at followed
  obtain ⟨place, reached, later⟩ := followed
  have there : store.isFolder place = true := by
    cases rest with
    | nil =>
      obtain rfl := Option.some.inj later
      exact isFolder
    | cons next more =>
      rw [follow] at later
      split at later
      · assumption
      · cases later
  have upperLocated : store.locate upper = some place :=
    (follow_filter there [] upper.segments).mp reached
  rw [← eq_placeOf_of_locate upperLocated]
  exact folder?_eq_some_iff.mpr ⟨upperLocated, there⟩

/-- An entry of a folder is where its name leads. -/
theorem locate_join (found : store.folder? path = some folder) (entry : IsEntry name) :
    store.locate (path.join ⟨name⟩) = some (folder ++ [name]) := by
  obtain ⟨located, isFolder⟩ := folder?_eq_some_iff.mp found
  have joined := Path.segments_join path entry.isAbsolute
  have reached : store.follow [] path.frontSegments = some folder := by
    rcases Path.segments_cases path with same | same
    · rw [← same]
      exact located
    · rw [locate, same, follow_append, Option.bind_eq_some_iff] at located
      obtain ⟨place, reached, ends⟩ := located
      simp only [follow] at ends
      split at ends
      · rw [reached]
        exact ends
      · cases ends
  have single : Path.segments ⟨name⟩ = [name] := Text.splitOn_eq_singleton entry.2.2
  rw [locate, joined, single, follow_append, reached, Option.bind_some]
  simp only [follow, isFolder, ↓reduceIte, entry.enter]

/-- What lies below a folder is where its names lead, if there are folders on the way. -/
theorem locate_foldl_join (found : store.folder? path = some folder) {names : Place}
    (entries : ∀ name ∈ names, IsEntry name)
    (between : ∀ above, above <+: names → above ≠ names → store.isFolder (folder ++ above) = true) :
    store.locate (names.foldl (fun path name => path.join ⟨name⟩) path) = some (folder ++ names) := by
  induction names using List.reverseRecOn with
  | nil =>
    rw [List.append_nil]
    exact (folder?_eq_some_iff.mp found).1
  | append_singleton front last ih =>
    have shorter (above : Place) (start : above <+: front) : above ≠ front ++ [last] := by
      rintro rfl
      have := start.length_le
      rw [List.length_append, List.length_singleton] at this
      omega
    have onWay := ih (fun name mem => entries name (List.mem_append_left _ mem))
      fun above start _ => between above (start.trans (List.prefix_append _ _)) (shorter above start)
    have isFolder := between front (List.prefix_append _ _) (shorter front List.prefix_rfl)
    rw [List.foldl_append, List.foldl_cons, List.foldl_nil, ← List.append_assoc]
    exact locate_join (folder?_eq_some_iff.mpr ⟨onWay, isFolder⟩) (entries last (by simp))

/-- A folder stays a folder. -/
theorem Written.isFolder (written : Written allowed before after)
    (isFolder : before.isFolder place = true) : after.isFolder place = true := by
  induction written with
  | same => exact isFolder
  | folder other _ ih =>
    exact isFolder_iff.mpr ((isFolder_iff.mp ih).imp_right (List.mem_cons_of_mem _))
  | file content _ _ ih => exact ih

/-- A path leads where it led before. -/
theorem Written.locate (written : Written allowed before after)
    (located : before.locate path = some place) : after.locate path = some place := by
  have steps : ∀ (segments : List Text) (start : Place),
      before.follow start segments = some place → after.follow start segments = some place := by
    intro segments
    induction segments with
    | nil => exact fun _ followed => followed
    | cons segment rest ih =>
      intro start followed
      simp only [follow] at followed ⊢
      split at followed
      · next isFolder =>
        rw [if_pos (written.isFolder isFolder)]
        exact ih _ followed
      · cases followed
  exact steps _ _ located

/-- A file that is not written holds what it held. -/
theorem Written.file?_eq (written : Written allowed before after)
    (located : before.locate path = some place) (other : ¬ allowed place) :
    after.file? path = before.file? path := by
  simp only [file?, located, written.locate located]
  exact written.content?_eq other

/-- A file at a place where nothing may be written holds what it held. -/
theorem Written.text?_eq (written : Written allowed before after)
    (located : before.locate path = some place) (other : ¬ allowed place) :
    after.text? path = before.text? path := by
  simp only [text?, written.file?_eq located other]

/-- The files that are not written stay in order. -/
theorem Written.filter_files (written : Written allowed before after) (kept : Place → Bool)
    (others : ∀ place, allowed place → kept place = false) :
    after.files.filter (kept ·.1) = before.files.filter (kept ·.1) := by
  induction written with
  | same => rfl
  | folder _ _ ih => exact ih
  | @file after target content admitted _ ih =>
    have gone := others target admitted
    rw [← ih]
    simp only [put, gone, Bool.false_eq_true, not_false_eq_true, List.filter_cons_of_neg,
      List.filter_filter]
    apply List.filter_congr
    intro entry _
    by_cases same : entry.1 = target
    · rw [same, gone, Bool.false_and]
    · simp [same]

/-- A store as a file system has it: files lie where names lead, files and folders lie in folders,
and a file is no folder. -/
structure IsTree (store : FileStore) : Prop where
  named : store.Named
  fileInside : ∀ entry ∈ store.files, store.isFolder entry.1.dropLast = true
  folderInside : ∀ folder ∈ store.folders, store.isFolder folder.dropLast = true
  apart : ∀ entry ∈ store.files, store.isFolder entry.1 = false

/-- The root is a folder. -/
theorem isFolder_root (store : FileStore) : store.isFolder [] = true := rfl

/-- A folder that is added is there. -/
theorem isFolder_addFolder (store : FileStore) (place : Place) :
    (store.addFolder place).isFolder place = true :=
  isFolder_iff.mpr (.inr List.mem_cons_self)

/-- What a place holds is one of the entries of the store. -/
theorem exists_of_content?_eq_some {content : Content} (found : store.content? place = some content) :
    (place, content) ∈ store.files := by
  rw [content?, List.lookup_eq_some_iff] at found
  obtain ⟨front, back, split, -⟩ := found
  rw [split]
  exact List.mem_append_right _ List.mem_cons_self

/-- Every entry of the store holds something. -/
theorem isSome_content?_of_mem {entry : Place × Content} (mem : entry ∈ store.files) :
    (store.content? entry.1).isSome = true := by
  rw [Option.isSome_iff_ne_none, content?, ne_eq, List.lookup_eq_none_iff]
  intro none
  have := none entry mem
  simp at this

namespace IsTree

/-- A folder lies in folders all the way up. -/
theorem isFolder_of_prefix (tree : store.IsTree) (isFolder : store.isFolder place = true)
    (start : above <+: place) : store.isFolder above = true := by
  induction place using List.reverseRecOn with
  | nil =>
    obtain rfl := List.prefix_nil.mp start
    exact isFolder
  | append_singleton front last ih =>
    rcases List.prefix_concat_iff.mp start with rfl | start
    · exact isFolder
    · rcases isFolder_iff.mp isFolder with root | listed
      · exact absurd root (List.concat_ne_nil last front)
      · have inside := tree.folderInside _ listed
        rw [List.dropLast_concat] at inside
        exact ih inside start

/-- Everything above a file is a folder. -/
theorem isFolder_above (tree : store.IsTree) {entry : Place × Content} (mem : entry ∈ store.files)
    (start : above <+: entry.1) (other : above ≠ entry.1) : store.isFolder above = true := by
  refine tree.isFolder_of_prefix (tree.fileInside entry mem) ?_
  obtain ⟨rest, whole⟩ := start
  have more : rest ≠ [] := by
    rintro rfl
    exact other (by simpa using whole)
  rw [← whole, List.dropLast_append_of_ne_nil more]
  exact List.prefix_append _ _

/-- A folder holds no content. -/
theorem content?_of_isFolder (tree : store.IsTree) (isFolder : store.isFolder place = true) :
    store.content? place = none := by
  cases found : store.content? place with
  | none => rfl
  | some content =>
    rw [tree.apart _ (exists_of_content?_eq_some found)] at isFolder
    cases isFolder

/-- What lies below a folder is where its path leads. -/
theorem locate_of_mem_filesBelow (tree : store.IsTree) (found : store.folder? path = some folder)
    {names : Place} (below : names ∈ store.filesBelow folder) :
    store.locate (names.foldl (fun path name => path.join ⟨name⟩) path) = some (folder ++ names) ∧
      (store.content? (folder ++ names)).isSome = true := by
  have entries := tree.named.entries_of_mem_filesBelow below
  obtain ⟨⟨place, content⟩, listed, isBelow⟩ := List.mem_filterMap.mp below
  obtain rfl := List.isPrefixOf?_eq_some_iff_append_eq.mp isBelow
  refine ⟨locate_foldl_join found entries fun above start other => ?_, isSome_content?_of_mem listed⟩
  refine tree.isFolder_above listed ?_ fun same => other (List.append_cancel_left same)
  exact (List.prefix_append_right_inj folder).mpr start

/-- A folder may be added inside another one where no file is. -/
theorem addFolder (tree : store.IsTree) (inside : store.isFolder place.dropLast = true)
    (free : store.content? place = none) : (store.addFolder place).IsTree := by
  have written : Written (fun _ => False) store (store.addFolder place) := Written.same.folder place
  have wider {other : Place} (isFolder : store.isFolder other = true) :
      (store.addFolder place).isFolder other = true := written.isFolder isFolder
  refine ⟨tree.named, fun entry mem => wider (tree.fileInside entry mem), ?_, ?_⟩
  · intro folder mem
    rcases List.mem_cons.mp mem with rfl | mem
    · exact wider inside
    · exact wider (tree.folderInside folder mem)
  · intro entry mem
    have mem : entry ∈ store.files := mem
    have other : entry.1 ≠ place := by
      intro same
      have found := isSome_content?_of_mem mem
      rw [same, free] at found
      cases found
    have apart := Bool.eq_false_iff.mp (tree.apart entry mem)
    rw [Bool.eq_false_iff, ne_eq, isFolder_iff]
    rintro (root | listed)
    · exact apart (isFolder_iff.mpr (.inl root))
    · rcases List.mem_cons.mp listed with same | listed
      · exact other same
      · exact apart (isFolder_iff.mpr (.inr listed))

/-- A file may be put into a folder where no folder is. -/
theorem put (tree : store.IsTree) (inside : store.isFolder place.dropLast = true)
    (free : store.isFolder place = false) (entries : ∀ name ∈ place, IsEntry name)
    (content : Content) : (store.put place content).IsTree := by
  have cases_ {entry : Place × Content} (mem : entry ∈ (store.put place content).files) :
      entry = (place, content) ∨ entry ∈ store.files :=
    (List.mem_cons.mp mem).imp_right List.mem_of_mem_filter
  refine ⟨?_, ?_, tree.folderInside, ?_⟩
  · intro entry mem
    rcases cases_ mem with rfl | mem
    · exact entries
    · exact tree.named entry mem
  · intro entry mem
    rcases cases_ mem with rfl | mem
    · exact inside
    · exact tree.fileInside entry mem
  · intro entry mem
    rcases cases_ mem with rfl | mem
    · exact free
    · exact tree.apart entry mem

/-- A place that is entered from a folder and that is no folder is an entry of it. -/
theorem enter_of_not_isFolder (tree : store.IsTree) (isFolder : store.isFolder place = true)
    (free : store.isFolder (place.enter name) = false) : place.enter name = place ++ [name] := by
  simp only [Place.enter] at free ⊢
  split
  case isTrue idle =>
    rw [if_pos idle, isFolder] at free
    cases free
  case isFalse telling =>
    split
    case isTrue up =>
      rw [if_neg telling, if_pos up,
        tree.isFolder_of_prefix isFolder (List.dropLast_prefix place)] at free
      cases free
    case isFalse => rfl

/-- Making folders leaves a tree of files, and what is made is a folder. -/
theorem makeFolders (tree : store.IsTree) (isFolder : store.isFolder place = true)
    (segments : List Text) : (store.makeFolders place segments).1.IsTree ∧
      ∀ folder, (store.makeFolders place segments).2 = some folder →
        (store.makeFolders place segments).1.isFolder folder = true := by
  fun_induction FileStore.makeFolders store place segments with
  | case1 store place =>
    refine ⟨tree, fun folder made => ?_⟩
    obtain rfl := Option.some.inj made
    exact isFolder
  | case2 store place segment rest next there ih => exact ih tree there
  | case3 store place segment rest next missing free ih =>
    have entered : next = place ++ [segment] :=
      tree.enter_of_not_isFolder isFolder (Bool.eq_false_iff.mpr missing)
    have noFile := (Bool.and_eq_true_iff.mp free).2
    refine ih (tree.addFolder ?_ (Option.isNone_iff_eq_none.mp noFile)) (isFolder_addFolder store next)
    rw [entered, List.dropLast_concat]
    exact isFolder
  | case4 store place segment rest next missing blocked => exact ⟨tree, by simp⟩

/-- Writing a file leaves a tree of files, whether it succeeds or not. -/
theorem write (tree : store.IsTree) (path : Path) (content : Content) :
    (store.write path content).1.IsTree := by
  have whole : path.segments = path.segments.dropLast ++ [path.segments.getLastD []] := by
    have nonempty : path.segments ≠ [] := Text.splitOn_ne_nil '/' path.spelling
    rw [List.getLastD_eq_getLast?, List.getLast?_eq_getLast_of_ne_nil nonempty]
    exact (List.dropLast_concat_getLast nonempty).symm
  obtain ⟨kept, reached⟩ := tree.makeFolders (isFolder_root store) path.segments.dropLast
  unfold FileStore.write
  simp only
  split
  case h_1 after made =>
    rw [made] at kept
    exact kept
  case h_2 after folder made =>
    have isFolder := eq_foldl_of_makeFolders (congrArg Prod.snd made)
    rw [made] at kept reached
    split
    · exact kept
    · next free =>
      rw [Bool.or_eq_true, not_or] at free
      have noFolder := Bool.eq_false_iff.mpr free.1
      have isPlace : folder.enter (path.segments.getLastD []) = placeOf path := by
        rw [placeOf, whole, List.foldl_append, ← isFolder]
        simp
      refine kept.put ?_ noFolder ?_ content
      · rw [kept.enter_of_not_isFolder (reached folder rfl) noFolder, List.dropLast_concat]
        exact reached folder rfl
      · rw [isPlace]
        exact fun _ => isEntry_of_mem_placeOf

end IsTree

end FileStore

namespace Job

variable {store : FileStore}

/-- Writing text leaves a tree of files. -/
theorem isTree_writeText (tree : store.IsTree) (path : Path) (text : Text) :
    (writeText store path text).1.IsTree := by
  rw [writeText_fst]
  exact tree.write path _

/-- Writing what a file is turned into leaves a tree of files. -/
theorem isTree_writeOutput (tree : store.IsTree) (job : Job) (relative : Path)
    (hoisted : Hoisted) : (job.writeOutput store relative hoisted).1.IsTree := by
  unfold writeOutput
  split
  · exact tree
  · next outDir _ =>
    have first := isTree_writeText tree (outDir.join relative) hoisted.code
    simp only
    split
    case h_1 after failure same =>
      rw [same] at first
      exact first
    case h_2 after same =>
      rw [same] at first
      split
      · exact isTree_writeText first _ _
      · exact first

/-- Processing a file leaves a tree of files. -/
theorem isTree_process (tree : store.IsTree) (job : Job) (file : Path) :
    (job.process store file).1.IsTree := by
  unfold process
  simp only
  split
  · exact tree
  · split
    · exact tree
    · next hoisted _ =>
      have output := isTree_writeOutput tree job (file.relativeTo job.workspace) hoisted
      split <;> simp_all

/-- Processing files one after another leaves a tree of files. -/
theorem isTree_processAll (tree : store.IsTree) (job : Job) (files : List Path) :
    (job.processAll store files).1.IsTree := by
  induction files generalizing store with
  | nil => exact tree
  | cons file rest ih => exact ih (isTree_process tree job file)

end Job

/-- **A run leaves a tree.** -/
theorem FileStore.IsTree.run {store : FileStore} (tree : store.IsTree) (current : Path)
    (arguments : Arguments) : (run store current arguments).1.IsTree := by
  unfold ClassHoist.run
  split
  · exact tree
  · exact Job.isTree_processAll tree _ _

/-- The files of a run are there. -/
theorem Selection.exists_of_mem_files {selection : Selection} {store : FileStore}
    {paths files : List Path} (tree : store.IsTree)
    (found : selection.files store paths = .ok files) {file : Path} (mem : file ∈ files) :
    ∃ place, store.locate file = some place ∧ (store.content? place).isSome = true := by
  obtain ⟨path, -, ⟨-, there⟩ | ⟨folder, isFolder, names, below, rfl, -⟩⟩ :=
    cases_of_mem_files found mem
  · cases located : store.locate file with
    | none =>
      rw [FileStore.file?, located] at there
      cases there
    | some place =>
      rw [FileStore.file?, located] at there
      exact ⟨place, rfl, there⟩
  · exact ⟨_, tree.locate_of_mem_filesBelow isFolder below⟩

end ClassHoist
