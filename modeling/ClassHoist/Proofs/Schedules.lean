import ClassHoist.Proofs.FileTrees
import Mathlib.Logic.Relation

/-! # Files that are processed together

Nothing fixes the order in which several files are processed: while one of them is read or written,
others can be at any step. A schedule takes one file a step further at a time, and processing the files
one after the other is one of the schedules. A file that cannot be read or processed takes a single
step, which writes nothing, so the schedules with it are those without it
(`Job.ends_append_cons_iff`).
-/

namespace ClassHoist

open Command

/-- What is still to be done about a file: it is to be read; it is read and processed, and texts are
to be written to paths; or it is known what became of it. -/
inductive Task where
  | reading (file : Path)
  | writing (relative : Path) (texts : List (Path × Text)) (processed : Processed)
  | finished (report : FileReport)

/-- The file itself is the reason why it was not processed: it could not be read, or what it holds could
not be processed. -/
def FileReport.Refused (report : FileReport) : Prop :=
  ∃ failure, report.outcome = .error failure ∧ ∀ path, failure ≠ .unwritable path

/-- The path that the report of a file shows. -/
def Task.path (workspace : Path) : Task → Path
  | .reading file => file.relativeTo workspace
  | .writing relative _ _ => relative
  | .finished report => report.path

/-- The file could be read and processed. -/
def Task.Accepted : Task → Prop
  | .reading _ => False
  | .writing .. => True
  | .finished report => ¬ report.Refused

namespace Job

variable {job : Job} {store after : FileStore} {task next : Task} {tasks : List Task}

/-- The texts that are to be written for a processed file, and their paths. -/
def texts (job : Job) (relative : Path) (hoisted : Hoisted) : List (Path × Text) :=
  match job.outDir with
  | none => []
  | some outDir =>
    (outDir.join relative, hoisted.code) ::
      match hoisted.map, job.sourceMap with
      | some map, true => [((outDir.join relative).extend ".map".toList, map.text.toList)]
      | _, _ => []

/-- What is to be done about a file when it has been read. -/
def read (job : Job) (store : FileStore) (file : Path) : Task :=
  let relative := file.relativeTo job.workspace
  match store.text? file with
  | none => .finished ⟨relative, .error (.unreadable relative)⟩
  | some content =>
    match hoist job.options content (some (String.ofList relative.spelling)) with
    | .error error => .finished ⟨relative, .error (.rejected relative error)⟩
    | .ok hoisted =>
      .writing relative (job.texts relative hoisted)
        ⟨hoisted.code, hoisted.map, hoisted.code == content⟩

/-- The next step for a file: the store afterwards and what is still to be done. -/
def advance (job : Job) (store : FileStore) : Task → Option (FileStore × Task)
  | .reading file => some (store, job.read store file)
  | .writing relative [] processed => some (store, .finished ⟨relative, .ok processed⟩)
  | .writing relative ((path, text) :: rest) processed =>
    match writeText store path text with
    | (store, some failure) => some (store, .finished ⟨relative, .error failure⟩)
    | (store, none) => some (store, .writing relative rest processed)
  | .finished _ => none

/-- One of several files, the first or a later one, is taken a step further. -/
inductive Step (job : Job) : FileStore × List Task → FileStore × List Task → Prop where
  | first {store after : FileStore} {task next : Task} (rest : List Task)
      (taken : job.advance store task = some (after, next)) :
      Step job (store, task :: rest) (after, next :: rest)
  | later {store after : FileStore} {tasks rest : List Task} (task : Task)
      (step : Step job (store, tasks) (after, rest)) :
      Step job (store, task :: tasks) (after, task :: rest)

/-- Steps that follow each other. -/
abbrev Steps (job : Job) : FileStore × List Task → FileStore × List Task → Prop :=
  Relation.ReflTransGen job.Step

/-- Processing files in some order can end with a store and with reports, which are in the order of the
files. -/
def Ends (job : Job) (store : FileStore) (files : List Path) (after : FileStore)
    (reports : List FileReport) : Prop :=
  job.Steps (store, files.map .reading) (after, reports.map .finished)

/-- Steps of later files are steps with one more file in front. -/
theorem steps_later (task : Task) {start stop : FileStore × List Task}
    (steps : job.Steps start stop) :
    job.Steps (start.1, task :: start.2) (stop.1, task :: stop.2) := by
  induction steps with
  | refl => exact .refl
  | tail _ step ih => exact ih.tail (step.later task)

/-- A file cannot be read, or what it holds cannot be processed; the report tells which. -/
inductive Refuses (job : Job) (store : FileStore) (file : Path) : FileReport → Prop where
  | unreadable (noText : store.text? file = none) :
      Refuses job store file ⟨file.relativeTo job.workspace,
        .error (.unreadable (file.relativeTo job.workspace))⟩
  | rejected {content : Text} {error : HoistError} (holds : store.text? file = some content)
      (failed : hoist job.options content
        (some (String.ofList (file.relativeTo job.workspace).spelling)) = .error error) :
      Refuses job store file ⟨file.relativeTo job.workspace,
        .error (.rejected (file.relativeTo job.workspace) error)⟩

section Refuses

variable {file : Path} {report : FileReport}

/-- A file that is refused is finished as soon as it is read. -/
theorem Refuses.read (refuses : job.Refuses store file report) :
    job.read store file = .finished report := by
  cases refuses with
  | unreadable noText => simp only [Job.read, noText]
  | rejected holds failed => simp only [Job.read, holds, failed]

/-- A file that is refused has a failure for its report. -/
theorem Refuses.refused (refuses : job.Refuses store file report) : report.Refused := by
  cases refuses <;> exact ⟨_, rfl, fun _ => by simp⟩

/-- The report of a file that is refused shows its path from the workspace. -/
theorem Refuses.path (refuses : job.Refuses store file report) :
    report.path = file.relativeTo job.workspace := by
  cases refuses <;> rfl

end Refuses

/-- Text that is not written has a path that cannot be written. -/
theorem eq_unwritable_of_writeText {path : Path} {text : Text} {failure : FileFailure}
    (written : writeText store path text = (after, some failure)) : failure = .unwritable path := by
  unfold writeText at written
  split at written
  · cases written
  · exact (Option.some.inj (Prod.mk.inj written).2).symm

/-- A step reads a file, or writes a text or fails to do so, or finds that all texts are written. -/
theorem advance_cases (taken : job.advance store task = some (after, next)) :
    (∃ file, task = .reading file ∧ after = store ∧ next = job.read store file) ∨
    (∃ relative processed, task = .writing relative [] processed ∧ after = store ∧
      next = .finished ⟨relative, .ok processed⟩) ∨
    ∃ relative path text rest processed, task = .writing relative ((path, text) :: rest) processed ∧
      (next = .finished ⟨relative, .error (.unwritable path)⟩ ∨
        next = .writing relative rest processed) ∧ after = (writeText store path text).1 := by
  unfold advance at taken
  split at taken
  · next file =>
    obtain ⟨rfl, rfl⟩ := Prod.mk.inj (Option.some.inj taken)
    exact .inl ⟨file, rfl, rfl, rfl⟩
  · next relative processed =>
    obtain ⟨rfl, rfl⟩ := Prod.mk.inj (Option.some.inj taken)
    exact .inr (.inl ⟨relative, processed, rfl, rfl, rfl⟩)
  · next relative path text rest processed =>
    refine .inr (.inr ⟨relative, path, text, rest, processed, rfl, ?_⟩)
    split at taken
    · next written =>
      obtain ⟨rfl, rfl⟩ := Prod.mk.inj (Option.some.inj taken)
      rw [eq_unwritable_of_writeText written, written]
      exact ⟨.inl rfl, rfl⟩
    · next written =>
      obtain ⟨rfl, rfl⟩ := Prod.mk.inj (Option.some.inj taken)
      rw [written]
      exact ⟨.inr rfl, rfl⟩
  · cases taken

/-- The store with texts written one after the other up to the first failure. -/
def writeTexts (store : FileStore) : List (Path × Text) → FileStore × Option FileFailure
  | [] => (store, none)
  | (path, text) :: rest =>
    match writeText store path text with
    | (store, some failure) => (store, some failure)
    | (store, none) => writeTexts store rest

/-- What a file is turned into is written text by text. -/
theorem writeOutput_eq (job : Job) (store : FileStore) (relative : Path) (hoisted : Hoisted) :
    job.writeOutput store relative hoisted = writeTexts store (job.texts relative hoisted) := by
  unfold writeOutput texts
  cases job.outDir with
  | none => rfl
  | some outDir =>
    simp only [writeTexts]
    cases writeText store (outDir.join relative) hoisted.code with
    | mk after failure =>
      cases failure with
      | some failure => rfl
      | none =>
        cases hoisted.map with
        | none => rfl
        | some map =>
          cases job.sourceMap with
          | false => rfl
          | true =>
            simp only [writeTexts]
            cases writeText after ((outDir.join relative).extend ".map".toList) map.text.toList with
            | mk last failure => cases failure <;> rfl

/-- What becomes of a processed file when its texts have been written. -/
def writtenReport (relative : Path) (processed : Processed) : Option FileFailure → FileReport
  | some failure => ⟨relative, .error failure⟩
  | none => ⟨relative, .ok processed⟩

/-- Texts that are not written have a path among them that cannot be. -/
theorem exists_unwritable_of_writeTexts {texts : List (Path × Text)} {failure : FileFailure}
    (failed : (writeTexts store texts).2 = some failure) : ∃ path, failure = .unwritable path := by
  induction texts generalizing store with
  | nil => cases failed
  | cons text rest ih =>
    obtain ⟨path, text⟩ := text
    rw [writeTexts] at failed
    cases written : writeText store path text with
    | mk after problem =>
      rw [written] at failed
      cases problem with
      | none => exact ih failed
      | some problem =>
        obtain rfl := Option.some.inj failed
        exact ⟨path, eq_unwritable_of_writeText written⟩

/-- Texts are written one step at a time. -/
theorem steps_writing (job : Job) (store : FileStore) (relative : Path)
    (texts : List (Path × Text)) (processed : Processed) (rest : List Task) :
    job.Steps (store, .writing relative texts processed :: rest)
      ((writeTexts store texts).1,
        .finished (writtenReport relative processed (writeTexts store texts).2) :: rest) := by
  induction texts generalizing store with
  | nil => exact .single (.first rest rfl)
  | cons text later ih =>
    obtain ⟨path, text⟩ := text
    have taken : job.advance store (.writing relative ((path, text) :: later) processed) =
        match writeText store path text with
        | (after, some failure) => some (after, .finished ⟨relative, .error failure⟩)
        | (after, none) => some (after, .writing relative later processed) := rfl
    rw [writeTexts]
    cases written : writeText store path text with
    | mk after failure =>
      rw [written] at taken
      cases failure with
      | some failure => exact .single (.first rest taken)
      | none => exact (ih after).head (.first rest taken)

/-- Processing a file is reading it and then writing its texts, unless it is refused. -/
theorem process_cases (job : Job) (store : FileStore) (file : Path) :
    (∃ report, job.Refuses store file report ∧ job.process store file = (store, report)) ∨
      ∃ hoisted processed,
        job.read store file = .writing (file.relativeTo job.workspace)
          (job.texts (file.relativeTo job.workspace) hoisted) processed ∧
        job.process store file =
          ((writeTexts store (job.texts (file.relativeTo job.workspace) hoisted)).1,
            writtenReport (file.relativeTo job.workspace) processed
              (writeTexts store (job.texts (file.relativeTo job.workspace) hoisted)).2) := by
  unfold read process
  simp only
  cases holds : store.text? file with
  | none => exact .inl ⟨_, .unreadable holds, rfl⟩
  | some content =>
    simp only
    cases done : hoist job.options content
        (some (String.ofList (file.relativeTo job.workspace).spelling)) with
    | error error => exact .inl ⟨_, .rejected holds done, rfl⟩
    | ok hoisted =>
      simp only [writeOutput_eq]
      refine .inr ⟨hoisted, _, rfl, ?_⟩
      cases writeTexts store (job.texts (file.relativeTo job.workspace) hoisted) with
      | mk after failure => cases failure <;> rfl

/-- A file that is read is refused, or its texts are to be written. -/
theorem read_cases (job : Job) (store : FileStore) (file : Path) :
    (∃ report, job.Refuses store file report ∧ job.read store file = .finished report) ∨
      ∃ hoisted processed, job.read store file = .writing (file.relativeTo job.workspace)
        (job.texts (file.relativeTo job.workspace) hoisted) processed := by
  rcases job.process_cases store file with ⟨report, refuses, -⟩ | ⟨hoisted, processed, read, -⟩
  · exact .inl ⟨report, refuses, refuses.read⟩
  · exact .inr ⟨hoisted, processed, read⟩

/-- Processing a file takes some steps, which end with its report. -/
theorem steps_process (job : Job) (store : FileStore) (file : Path) (rest : List Task) :
    job.Steps (store, .reading file :: rest)
      ((job.process store file).1, .finished (job.process store file).2 :: rest) := by
  have start : job.Step (store, .reading file :: rest) (store, job.read store file :: rest) :=
    .first rest rfl
  refine .head start ?_
  rcases job.process_cases store file with ⟨report, refuses, done⟩ | ⟨hoisted, processed, read, done⟩
  · rw [refuses.read, done]
  · rw [read, done]
    exact steps_writing job store _ _ processed rest

/-- **Processing the files one after the other is a schedule.** -/
theorem ends_processAll (job : Job) (store : FileStore) (files : List Path) :
    job.Ends store files (job.processAll store files).1 (job.processAll store files).2 := by
  induction files generalizing store with
  | nil => exact .refl
  | cons file rest ih =>
    exact (steps_process job store file (rest.map .reading)).trans
      (steps_later (.finished (job.process store file).2) (ih (job.process store file).1))

/-- A step for a file keeps the path it is reported under. -/
theorem path_advance (taken : job.advance store task = some (after, next)) :
    next.path job.workspace = task.path job.workspace := by
  rcases advance_cases taken with ⟨file, rfl, -, rfl⟩ | ⟨relative, processed, rfl, -, rfl⟩ |
    ⟨relative, path, text, rest, processed, rfl, rfl | rfl, -⟩
  · rcases job.read_cases store file with ⟨report, refuses, read⟩ | ⟨_, _, read⟩
    · rw [read]
      exact refuses.path
    · rw [read]
      rfl
  all_goals rfl

/-- A step keeps the paths that files are reported under. -/
theorem Step.paths {start stop : FileStore × List Task} (step : job.Step start stop) :
    stop.2.map (Task.path job.workspace) = start.2.map (Task.path job.workspace) := by
  induction step with
  | first rest taken => simp only [List.map_cons, path_advance taken]
  | later task _ ih => simp only [List.map_cons, ih]

/-- **There is one report for each file, in the order of the files.** -/
theorem Ends.paths {files : List Path} {reports : List FileReport}
    (ends : job.Ends store files after reports) :
    reports.map FileReport.path = files.map (·.relativeTo job.workspace) := by
  have steps : ∀ {start stop : FileStore × List Task}, job.Steps start stop →
      stop.2.map (Task.path job.workspace) = start.2.map (Task.path job.workspace) := by
    intro start stop steps
    induction steps with
    | refl => rfl
    | tail _ step ih => exact step.paths.trans ih
  simpa only [List.map_map, Function.comp_def, Task.path] using steps ends

/-- A step is taken by the file at a place or by one of the others. -/
theorem Step.cases_at {front back : List Task} {stop : FileStore × List Task}
    (step : job.Step (store, front ++ task :: back) stop) :
    (∃ next, job.advance store task = some (stop.1, next) ∧ stop.2 = front ++ next :: back) ∨
      ∃ front' back', front'.length = front.length ∧ stop.2 = front' ++ task :: back' ∧
        job.Step (store, front ++ back) (stop.1, front' ++ back') := by
  induction front generalizing stop with
  | nil =>
    cases step with
    | first _ taken => exact .inl ⟨_, taken, rfl⟩
    | later _ step => exact .inr ⟨[], _, rfl, rfl, step⟩
  | cons other front ih =>
    cases step with
    | @first _ _ _ next _ taken => exact .inr ⟨next :: front, back, rfl, rfl, .first _ taken⟩
    | later _ step =>
      rcases ih step with ⟨next, taken, same⟩ | ⟨front', back', counted, same, step⟩
      · exact .inl ⟨next, taken, congrArg (other :: ·) same⟩
      · exact .inr ⟨other :: front', back', congrArg (· + 1) counted, congrArg (other :: ·) same,
          step.later other⟩

/-- A step can be taken while one more file waits. -/
theorem Step.insert (task : Task) {front back : List Task} {stop : FileStore × List Task}
    (step : job.Step (store, front ++ back) stop) :
    ∃ front' back', front'.length = front.length ∧ stop.2 = front' ++ back' ∧
      job.Step (store, front ++ task :: back) (stop.1, front' ++ task :: back') := by
  induction front generalizing stop with
  | nil => exact ⟨[], stop.2, rfl, rfl, step.later task⟩
  | cons other front ih =>
    cases step with
    | @first _ _ _ next _ taken => exact ⟨next :: front, back, rfl, rfl, .first _ taken⟩
    | later _ step =>
      obtain ⟨front', back', counted, same, step⟩ := ih step
      exact ⟨other :: front', back', congrArg (· + 1) counted, congrArg (other :: ·) same,
        step.later other⟩

/-- A file between others may be taken a step further. -/
theorem Step.at (taken : job.advance store task = some (after, next)) (front back : List Task) :
    job.Step (store, front ++ task :: back) (after, front ++ next :: back) := by
  induction front with
  | nil => exact .first back taken
  | cons other front ih => exact ih.later other

variable {front back : List Path} {file : Path} {earlier later : List FileReport}
  {report : FileReport}

/-- **An invariant of one file among others.** What holds at the start holds at the end if a step of the
file keeps it and a step of the others keeps it, too. -/
theorem Ends.induction_at {motive : FileStore → List Task → Task → List Task → Prop}
    (ends : job.Ends store (front ++ file :: back) after (earlier ++ report :: later))
    (counted : earlier.length = front.length)
    (start : motive store (front.map .reading) (.reading file) (back.map .reading))
    (own : ∀ {store after task next before behind}, motive store before task behind →
      job.advance store task = some (after, next) → motive after before next behind)
    (others : ∀ {store after task before behind before' behind'}, motive store before task behind →
      job.Step (store, before ++ behind) (after, before' ++ behind') →
        motive after before' task behind') :
    motive after (earlier.map .finished) (.finished report) (later.map .finished) := by
  have steps : ∀ {state : FileStore × List Task},
      job.Steps (store, front.map .reading ++ .reading file :: back.map .reading) state →
        ∃ before task behind, before.length = front.length ∧ state.2 = before ++ task :: behind ∧
          motive state.1 before task behind := by
    intro state steps
    induction steps with
    | refl => exact ⟨_, _, _, List.length_map _, rfl, start⟩
    | @tail reached stop _ step ih =>
      obtain ⟨before, task, behind, length, same, holds⟩ := ih
      rw [show reached = (reached.1, before ++ task :: behind) from Prod.ext rfl same] at step
      rcases step.cases_at with ⟨next, taken, same⟩ | ⟨before', behind', length', same, step⟩
      · exact ⟨before, next, behind, length, same, own holds taken⟩
      · exact ⟨before', task, behind', length'.trans length, same, others holds step⟩
  unfold Ends at ends
  rw [List.map_append, List.map_cons] at ends
  obtain ⟨before, task, behind, length, same, holds⟩ := steps ends
  rw [List.map_append, List.map_cons] at same
  obtain ⟨rfl, rest⟩ := List.append_inj same.symm (by rw [length, List.length_map, counted])
  obtain ⟨rfl, rfl⟩ := List.cons.inj rest
  exact holds

/-- A file that was accepted stays so. -/
theorem accepted_advance (accepted : task.Accepted)
    (taken : job.advance store task = some (after, next)) : next.Accepted := by
  rcases advance_cases taken with ⟨file, rfl, -, -⟩ | ⟨relative, processed, rfl, -, rfl⟩ |
    ⟨relative, path, text, rest, processed, rfl, rfl | rfl, -⟩
  · cases accepted
  · rintro ⟨failure, failed, -⟩
    cases failed
  · rintro ⟨failure, failed, other⟩
    exact other path (Except.error.inj failed).symm
  · trivial

/-- **A refused file writes nothing.** The schedule without it ends with the same store and with the
same reports of the other files. -/
theorem Ends.erase (ends : job.Ends store (front ++ file :: back) after (earlier ++ report :: later))
    (counted : earlier.length = front.length) (refused : report.Refused) :
    job.Ends store (front ++ back) after (earlier ++ later) := by
  -- As long as the file is not accepted, the steps without it lead to the same store.
  have invariant := ends.induction_at
    (motive := fun now before task behind =>
      task.Accepted ∨ (task = .reading file ∨ ∃ report, task = .finished report) ∧
        job.Steps (store, front.map .reading ++ back.map .reading) (now, before ++ behind))
    counted (.inr ⟨.inl rfl, .refl⟩)
    (fun holds taken => ?own)
    (fun holds step => holds.imp_right fun ⟨waits, without⟩ => ⟨waits, without.tail step⟩)
  case own =>
    rcases holds with accepted | ⟨rfl | ⟨done, rfl⟩, without⟩
    · exact .inl (accepted_advance accepted taken)
    · obtain ⟨rfl, rfl⟩ := Prod.mk.inj (Option.some.inj taken)
      rcases job.read_cases _ file with ⟨done, -, read⟩ | ⟨_, _, read⟩
      · exact .inr ⟨.inr ⟨done, read⟩, without⟩
      · exact .inl (read ▸ trivial)
    · cases taken
  rcases invariant with accepted | ⟨-, without⟩
  · exact absurd refused accepted
  · unfold Ends
    rwa [List.map_append, List.map_append]

/-- A file that is refused at the start can be added to any schedule. -/
theorem Ends.insert (ends : job.Ends store (front ++ back) after (earlier ++ later))
    (counted : earlier.length = front.length) (refuses : job.Refuses store file report) :
    job.Ends store (front ++ file :: back) after (earlier ++ report :: later) := by
  have steps : ∀ {state : FileStore × List Task},
      job.Steps (store, front.map .reading ++ back.map .reading) state →
        ∃ before behind, before.length = front.length ∧ state.2 = before ++ behind ∧
          job.Steps (store, front.map .reading ++ .finished report :: back.map .reading)
            (state.1, before ++ .finished report :: behind) := by
    intro state steps
    induction steps with
    | refl => exact ⟨front.map .reading, back.map .reading, List.length_map _, rfl, .refl⟩
    | @tail reached stop _ step ih =>
      obtain ⟨before, behind, counted, same, with_⟩ := ih
      rw [show reached = (reached.1, before ++ behind) from Prod.ext rfl same] at step
      obtain ⟨before', behind', length, same, others⟩ := step.insert (.finished report)
      exact ⟨before', behind', length.trans counted, same, with_.tail others⟩
  unfold Ends at ends ⊢
  rw [List.map_append] at ends
  obtain ⟨before, behind, length, same, with_⟩ := steps ends
  rw [List.map_append] at same
  obtain ⟨rfl, rfl⟩ := List.append_inj same.symm (by rw [length, List.length_map, counted])
  have taken : job.advance store (.reading file) = some (store, .finished report) := by
    rw [advance, refuses.read]
  rw [List.map_append, List.map_cons, List.map_append, List.map_cons]
  exact with_.head (.at taken _ _)

/-- What is written for a file as it is now. -/
def outputs (job : Job) (store : FileStore) (file : Path) : List (Path × Text) :=
  match job.read store file with
  | .writing _ texts _ => texts
  | _ => []

/-- A place that something is written to for one of the files as they are now. -/
def IsOutput (job : Job) (store : FileStore) (files : List Path) (place : Place) : Prop :=
  ∃ file ∈ files, ∃ output ∈ job.outputs store file, place = placeOf output.1

/-- Nothing is written to where one of the files is. -/
def Apart (job : Job) (store : FileStore) (files : List Path) : Prop :=
  ∀ file ∈ files, ∀ place, store.locate file = some place → ¬ job.IsOutput store files place

/-- What is still to be done is some of what was to be done at the start. -/
def Admits (job : Job) (store : FileStore) (files : List Path) : Task → Prop
  | .reading file => file ∈ files
  | .writing _ texts _ => ∀ text ∈ texts, job.IsOutput store files (placeOf text.1)
  | .finished _ => True

/-- Only outputs were written so far, and only outputs are still to be written. -/
structure Keeps (job : Job) (store : FileStore) (files : List Path)
    (state : FileStore × List Task) : Prop where
  written : FileStore.Written (job.IsOutput store files) store state.1
  admitted : ∀ task ∈ state.2, job.Admits store files task

variable {files : List Path} {now : FileStore}

/-- As long as only outputs are written, a file is read as at the start. -/
theorem read_eq (there : ∀ file ∈ files, (store.locate file).isSome = true)
    (apart : job.Apart store files)
    (written : FileStore.Written (job.IsOutput store files) store now) (listed : file ∈ files) :
    job.read now file = job.read store file := by
  obtain ⟨place, located⟩ := Option.isSome_iff_exists.mp (there file listed)
  unfold read
  rw [written.text?_eq located (apart file listed place located)]

/-- A step writes only what is output for one of the files, and keeps to what was to be done. -/
theorem keeps_advance (there : ∀ file ∈ files, (store.locate file).isSome = true)
    (apart : job.Apart store files)
    (written : FileStore.Written (job.IsOutput store files) store now)
    (admitted : job.Admits store files task) (taken : job.advance now task = some (after, next)) :
    FileStore.Written (job.IsOutput store files) store after ∧ job.Admits store files next := by
  rcases advance_cases taken with ⟨file, rfl, rfl, rfl⟩ | ⟨relative, processed, rfl, rfl, rfl⟩ |
    ⟨relative, path, text, rest, processed, rfl, isNext, rfl⟩
  · rw [read_eq there apart written admitted]
    refine ⟨written, ?_⟩
    rcases job.read_cases store file with ⟨report, -, read⟩ | ⟨hoisted, processed, read⟩
    · rw [read]
      trivial
    · rw [read]
      intro text mem
      exact ⟨file, admitted, text, by rwa [outputs, read], rfl⟩
  · exact ⟨written, trivial⟩
  · have isOutput := admitted (path, text) List.mem_cons_self
    refine ⟨written.trans ?_, ?_⟩
    · rw [writeText_fst]
      exact (FileStore.written_write now path _).mono fun place same => by rwa [same]
    · rcases isNext with rfl | rfl
      · trivial
      · exact fun text mem => admitted text (List.mem_cons_of_mem _ mem)

/-- A step keeps to the outputs. -/
theorem Step.keeps (there : ∀ file ∈ files, (store.locate file).isSome = true)
    (apart : job.Apart store files) {start stop : FileStore × List Task}
    (step : job.Step start stop) (kept : job.Keeps store files start) :
    job.Keeps store files stop := by
  induction step with
  | first rest taken =>
    obtain ⟨written, admitted⟩ := keeps_advance there apart kept.written
      (kept.admitted _ List.mem_cons_self) taken
    exact ⟨written, List.forall_mem_cons.mpr
      ⟨admitted, fun task mem => kept.admitted task (List.mem_cons_of_mem _ mem)⟩⟩
  | later task step ih =>
    obtain ⟨admits, others⟩ := List.forall_mem_cons.mp kept.admitted
    obtain ⟨written, admitted⟩ := ih ⟨kept.written, others⟩
    exact ⟨written, List.forall_mem_cons.mpr ⟨admits, admitted⟩⟩

/-- If outputs are apart from the files, a file that is refused at the start is refused in the same way
whenever its turn comes. -/
theorem Ends.report_eq
    (there : ∀ other ∈ front ++ file :: back, (store.locate other).isSome = true)
    (apart : job.Apart store (front ++ file :: back))
    {expected : FileReport} (refuses : job.Refuses store file expected)
    (ends : job.Ends store (front ++ file :: back) after (earlier ++ report :: later))
    (counted : earlier.length = front.length) : report = expected := by
  -- The steps of the others write only outputs, so the file is read as at the start.
  have invariant := ends.induction_at
    (motive := fun now before task behind =>
      job.Keeps store (front ++ file :: back) (now, before ++ behind) ∧
        (task = .reading file ∨ task = .finished expected))
    counted ⟨⟨.same, ?start⟩, .inl rfl⟩
    (fun ⟨kept, holds⟩ taken => ?own)
    (fun ⟨kept, holds⟩ step => ⟨step.keeps there apart kept, holds⟩)
  case start =>
    intro task mem
    rw [← List.map_append] at mem
    obtain ⟨other, listed, rfl⟩ := List.mem_map.mp mem
    exact List.perm_middle.mem_iff.mpr (List.mem_cons_of_mem file listed)
  case own =>
    rcases holds with rfl | rfl
    · obtain ⟨rfl, rfl⟩ := Prod.mk.inj (Option.some.inj taken)
      rw [read_eq there apart kept.written (by simp), refuses.read]
      exact ⟨kept, .inr rfl⟩
    · cases taken
  rcases invariant with ⟨-, waits | done⟩
  · cases waits
  · exact Task.finished.inj done

/-- **A file that is refused does not matter to the others.** If outputs are apart from the files, the
schedules with it are those without it, with its report in its place. -/
theorem ends_append_cons_iff
    (there : ∀ other ∈ front ++ file :: back, (store.locate other).isSome = true)
    (apart : job.Apart store (front ++ file :: back))
    (refuses : job.Refuses store file report) {reports : List FileReport} :
    job.Ends store (front ++ file :: back) after reports ↔
      ∃ earlier later, reports = earlier ++ report :: later ∧ earlier.length = front.length ∧
        job.Ends store (front ++ back) after (earlier ++ later) := by
  constructor
  · intro ends
    have counted := congrArg List.length ends.paths
    rw [List.length_map, List.length_map, List.length_append, List.length_cons] at counted
    have before : (reports.take front.length).length = front.length := by
      rw [List.length_take]
      omega
    obtain ⟨found, later, split⟩ : ∃ found later, reports.drop front.length = found :: later :=
      List.exists_cons_of_length_pos (by rw [List.length_drop]; omega)
    have whole : reports = reports.take front.length ++ found :: later := by
      rw [← split, List.take_append_drop]
    rw [whole] at ends ⊢
    obtain rfl := ends.report_eq there apart refuses before
    exact ⟨_, later, rfl, before, ends.erase before refuses.refused⟩
  · rintro ⟨earlier, later, rfl, counted, ends⟩
    exact ends.insert counted refuses

end Job

end ClassHoist
