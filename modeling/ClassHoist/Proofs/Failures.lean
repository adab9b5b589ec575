import ClassHoist.Proofs.PathOrder
import ClassHoist.Proofs.Schedules

/-! # Failures

A run that cannot start changes nothing. Otherwise every file has one report, in the order of the paths,
and a file that cannot be read or processed is counted as failed and writes nothing: the other files fare
as they do without it, whatever the order of the steps, if nothing is written to where a file of the run
is (`start_isolates_failures`).
-/

namespace ClassHoist

open Command

/-- The file was processed and is as it was. -/
def FileReport.isUnchanged (report : FileReport) : Bool := report.processed?.any (·.unchanged)

/-- The record of a processed file. -/
def FileReport.HasRecord (report : FileReport) (record : Json) : Prop :=
  ∃ processed, report.outcome = .ok processed ∧ report.record? = some record ∧
    ∃ members, record = .object (("filename", .string (String.ofList report.path.spelling)) ::
      ("code", .string (String.ofList processed.code)) :: members)

namespace Summary

variable {earlier later : List FileReport} {report : FileReport}

/-- Every file failed, changed, or was left as it was. -/
theorem files_eq (reports : List FileReport) : (ofReports reports).files =
    (ofReports reports).failed + (ofReports reports).changed +
      reports.countP FileReport.isUnchanged := by
  simp only [ofReports]
  induction reports with
  | nil => rfl
  | cons report rest ih =>
    obtain ⟨path, failure | ⟨code, map, unchanged⟩⟩ := report
    · have failed : FileReport.failure? ⟨path, .error failure⟩ = some failure := rfl
      simp only [List.length_cons, List.filterMap_cons_some failed, List.countP_cons,
        FileReport.isChanged, FileReport.isUnchanged, FileReport.processed?, Option.any_none,
        Bool.false_eq_true, ↓reduceIte, ih]
      omega
    · have done : FileReport.failure? ⟨path, .ok ⟨code, map, unchanged⟩⟩ = none := rfl
      simp only [List.length_cons, List.filterMap_cons_none done, List.countP_cons,
        FileReport.isChanged, FileReport.isUnchanged, FileReport.processed?, Option.any_some, ih]
      cases unchanged <;>
      · simp only [Bool.not_true, Bool.not_false, Bool.false_eq_true, ↓reduceIte]
        omega

/-- A refused file counts once, as failed. -/
theorem ofReports_append_cons (refused : report.Refused) :
    ofReports (earlier ++ report :: later) =
      { ofReports (earlier ++ later) with
        files := (ofReports (earlier ++ later)).files + 1
        failed := (ofReports (earlier ++ later)).failed + 1 } := by
  obtain ⟨failure, failed, -⟩ := refused
  simp [ofReports, FileReport.isChanged, FileReport.processed?, FileReport.failure?, failed]
  omega

end Summary

/-- **The array that is printed holds the processed files in order.** -/
theorem Report.output_json (written : Bool) (reports : List FileReport) :
    ∃ records, (Report.ofReports .json written reports).output =
        (Json.array records).indented 0 ++ "\n" ∧
      List.Forall₂ FileReport.HasRecord (reports.filter (·.processed?.isSome)) records := by
  refine ⟨reports.filterMap FileReport.record?, rfl, ?_⟩
  induction reports with
  | nil => exact .nil
  | cons report rest ih =>
    cases outcome : report.outcome with
    | error failure =>
      have none : report.processed? = none := by rw [FileReport.processed?, outcome]
      rw [List.filter_cons_of_neg (by simp [none]), List.filterMap_cons_none]
      · exact ih
      · rw [FileReport.record?, none]
        rfl
    | ok processed =>
      have some_ : report.processed? = some processed := by rw [FileReport.processed?, outcome]
      have record : report.record? = some _ := congrArg (Option.map _) some_
      rw [List.filter_cons_of_pos (by simp [some_]), List.filterMap_cons_some record]
      exact .cons ⟨processed, outcome, record, _, rfl⟩ ih

namespace Job

variable {job : Job} {store after : FileStore} {file : Path} {front back : List Path}
  {report : FileReport}

/-- A refused file leaves the store. -/
theorem process_of_refused (refused : (job.process store file).2.Refused) :
    (job.process store file).1 = store := by
  rcases job.process_cases store file with ⟨report, -, done⟩ | ⟨hoisted, processed, -, done⟩
  · rw [done]
  · rw [done] at refused
    obtain ⟨failure, failed, other⟩ := refused
    cases written : (writeTexts store (job.texts (file.relativeTo job.workspace) hoisted)).2 with
    | none =>
      rw [written] at failed
      cases failed
    | some problem =>
      obtain ⟨path, rfl⟩ := exists_unwritable_of_writeTexts written
      rw [written] at failed
      exact absurd (Except.error.inj failed).symm (other path)

/-- Files are processed one at a time, each with the store that the one before left. -/
theorem processAll_cons (job : Job) (store : FileStore) (file : Path) (rest : List Path) :
    job.processAll store (file :: rest) =
      ((job.processAll (job.process store file).1 rest).1,
        (job.process store file).2 :: (job.processAll (job.process store file).1 rest).2) := rfl

/-- Files are processed as some of them and then the others are. -/
theorem processAll_append (job : Job) (store : FileStore) (first second : List Path) :
    job.processAll store (first ++ second) =
      ((job.processAll (job.processAll store first).1 second).1,
        (job.processAll store first).2 ++ (job.processAll (job.processAll store first).1 second).2) := by
  induction first generalizing store with
  | nil => rfl
  | cons file rest ih => simp only [List.cons_append, processAll_cons, ih]

/-- **Without a refused file the others fare the same.** If nothing is written to where one of the files
is, processing the files in order without one that is refused at the start leads to the same store and
to the same reports of the others. -/
theorem processAll_erase
    (there : ∀ other ∈ front ++ file :: back, (store.locate other).isSome = true)
    (apart : job.Apart store (front ++ file :: back)) (refuses : job.Refuses store file report) :
    ∃ earlier later, (job.processAll store (front ++ file :: back)).2 = earlier ++ report :: later ∧
      earlier.length = front.length ∧
      job.processAll store (front ++ back) =
        ((job.processAll store (front ++ file :: back)).1, earlier ++ later) := by
  have ends := job.ends_processAll store (front ++ file :: back)
  have counted := congrArg List.length (job.ends_processAll store front).paths
  rw [List.length_map, List.length_map] at counted
  rw [processAll_append, processAll_cons] at ends ⊢
  have same := ends.report_eq there apart refuses counted
  have left : (job.process (job.processAll store front).1 file).1 = (job.processAll store front).1 :=
    process_of_refused (same ▸ refuses.refused)
  refine ⟨(job.processAll store front).2, _, by rw [← same], counted, ?_⟩
  rw [processAll_append, left]

/-- What the ends of all schedules of a job have in common. There is one report for each file, in
the order of the files, and without a file that was refused the others can end in the same way, with
one failure less and nothing else. -/
structure Isolates (job : Job) (store : FileStore) (files : List Path) (after : FileStore)
    (reports : List FileReport) : Prop where
  paths : reports.map FileReport.path = files.map (·.relativeTo job.workspace)
  refused : ∀ {front back file earlier later report}, files = front ++ file :: back →
    reports = earlier ++ report :: later → earlier.length = front.length → report.Refused →
      job.Ends store (front ++ back) after (earlier ++ later) ∧
        Summary.ofReports reports = { Summary.ofReports (earlier ++ later) with
          files := (Summary.ofReports (earlier ++ later)).files + 1
          failed := (Summary.ofReports (earlier ++ later)).failed + 1 }

/-- Processing in any order isolates failures. -/
theorem Ends.isolates {files : List Path} {reports : List FileReport}
    (ends : job.Ends store files after reports) : job.Isolates store files after reports where
  paths := ends.paths
  refused := by
    rintro front back file earlier later report rfl rfl counted refused
    exact ⟨ends.erase counted refused, Summary.ofReports_append_cons refused⟩

end Job

variable {store : FileStore} {current outDir : Path} {arguments : Arguments} {plan : Plan}

/-- The texts of a processed file go to its targets. -/
theorem Job.isTarget_of_mem_texts {job : Job} {file path : Path} {hoisted : Hoisted} {text : Text}
    (mem : (path, text) ∈ job.texts (file.relativeTo job.workspace) hoisted) :
    job.IsTarget file (placeOf path) := by
  unfold texts at mem
  split at mem
  · cases mem
  · next outDir given =>
    rcases List.mem_cons.mp mem with same | mem
    · exact ⟨outDir, given, .inl (congrArg (placeOf ·.1) same)⟩
    · split at mem
      · obtain same := List.mem_singleton.mp mem
        exact ⟨outDir, given, .inr (congrArg (placeOf ·.1) same)⟩
      · cases mem

/-- Outputs are targets of one of the files. -/
theorem Job.isTarget_of_isOutput {job : Job} {files : List Path} {place : Place}
    (output : job.IsOutput store files place) : ∃ file ∈ files, job.IsTarget file place := by
  obtain ⟨file, listed, ⟨path, text⟩, written, rfl⟩ := output
  rw [outputs] at written
  rcases job.read_cases store file with ⟨report, -, read⟩ | ⟨hoisted, processed, read⟩
  · rw [read] at written
    cases written
  · rw [read] at written
    exact ⟨file, listed, isTarget_of_mem_texts written⟩

/-- Nothing is written to where a file is if paths lead down. -/
theorem Arguments.LeadDownFrom.isApart {base : List Text}
    (down : arguments.LeadDownFrom base store current outDir) (named : store.Named)
    (planned : Plan.ofArguments store current arguments = .ok plan) :
    plan.job.Apart store plan.files := by
  intro file mem place located isOutput
  obtain ⟨source, listed, target⟩ := Job.isTarget_of_isOutput isOutput
  exact (down.apart_of_isTarget named planned listed target).2 file mem located

/-- The files of a plan are in strictly ascending order. -/
theorem Plan.pairwise_files (planned : Plan.ofArguments store current arguments = .ok plan) :
    plan.files.Pairwise Path.IsBefore := by
  obtain ⟨-, -, selection, -, -, -, found⟩ := Plan.exists_selection planned
  unfold Selection.files at found
  cases all : selection.filesAtAll store arguments.paths with
  | error error =>
    rw [all] at found
    cases found
  | ok unsorted =>
    rw [all] at found
    have arranged : Path.arrange unsorted = plan.files := Except.ok.inj found
    rw [← arranged]
    exact Path.pairwise_arrange unsorted

/-- A run that cannot start leaves the store; any other one processes the files of its plan. -/
theorem start_cases (store : FileStore) (current : Except FolderError Path)
    (arguments : Arguments) :
    (∃ error, start store current arguments = (store, .error error)) ∨
      ∃ base plan, arguments.base current = .ok base ∧
        Plan.ofArguments store base arguments = .ok plan ∧
        start store current arguments = ((plan.job.processAll store plan.files).1,
          .ok (plan.job.processAll store plan.files).2) := by
  unfold start
  cases arguments.base current with
  | error error => exact .inl ⟨_, rfl⟩
  | ok base =>
    simp only [run]
    cases planned : Plan.ofArguments store base arguments with
    | error error => exact .inl ⟨_, rfl⟩
    | ok plan => exact .inr ⟨base, plan, rfl, planned, rfl⟩

/-- The files of a plan are there. -/
theorem Plan.isSome_locate (tree : store.IsTree)
    (planned : Plan.ofArguments store current arguments = .ok plan) :
    ∀ file ∈ plan.files, (store.locate file).isSome = true := by
  intro file mem
  obtain ⟨-, -, selection, -, -, -, found⟩ := Plan.exists_selection planned
  obtain ⟨place, located, -⟩ := Selection.exists_of_mem_files tree found mem
  rw [located]
  rfl

/-- **Failures are early and isolated.** A run that cannot start, because of the workspace, the
configuration, a pattern or a missing path, changes nothing. Otherwise the files that it processes are in
strictly ascending order, and in whatever order their steps are taken, each of them has one report in
its place; one that is refused writes nothing, is counted once as failed, and leaves the reports and the
written files of the others as they are without it; the counts add up; and the array of records holds
the processed files in their order. If nothing is written to where a file of the run is, whether a file
is refused does not depend on the order of the steps. -/
theorem start_isolates_failures (tree : store.IsTree) (current : Except FolderError Path)
    (arguments : Arguments) :
    (∀ error, (start store current arguments).2 = .error error →
      (start store current arguments).1 = store) ∧
    ∀ result, (start store current arguments).2 = .ok result →
      ∃ base plan, arguments.base current = .ok base ∧
        Plan.ofArguments store base arguments = .ok plan ∧
        plan.files.Pairwise Path.IsBefore ∧
        plan.job.processAll store plan.files = ((start store current arguments).1, result) ∧
        plan.job.Ends store plan.files (start store current arguments).1 result ∧
        (∀ after reports, plan.job.Ends store plan.files after reports →
          plan.job.Isolates store plan.files after reports ∧
          (Summary.ofReports reports).files = (Summary.ofReports reports).failed +
            (Summary.ofReports reports).changed + reports.countP FileReport.isUnchanged ∧
          ∀ written, ∃ records, (Report.ofReports .json written reports).output =
              (Json.array records).indented 0 ++ "\n" ∧
            List.Forall₂ FileReport.HasRecord (reports.filter (·.processed?.isSome)) records) ∧
        (plan.job.Apart store plan.files →
          ∀ front file back report, plan.files = front ++ file :: back →
            plan.job.Refuses store file report →
              (∃ earlier later, result = earlier ++ report :: later ∧
                earlier.length = front.length ∧
                plan.job.processAll store (front ++ back) =
                  ((start store current arguments).1, earlier ++ later)) ∧
              ∀ after reports, plan.job.Ends store plan.files after reports ↔
                ∃ earlier later, reports = earlier ++ report :: later ∧
                  earlier.length = front.length ∧
                  plan.job.Ends store (front ++ back) after (earlier ++ later)) := by
  -- The run cannot start, or it processes the files of its plan in order.
  rcases start_cases store current arguments with ⟨error, failed⟩ | ⟨base, plan, isBase, planned, done⟩
  · rw [failed]
    exact ⟨fun _ _ => rfl, fun _ impossible => (by cases impossible)⟩
  · have there := Plan.isSome_locate tree planned
    rw [done]
    refine ⟨fun _ impossible => (by cases impossible), ?_⟩
    intro result isResult
    obtain rfl := Except.ok.inj isResult
    refine ⟨base, plan, isBase, planned, Plan.pairwise_files planned, rfl,
      plan.job.ends_processAll store plan.files, ?_, ?_⟩
    · intro after reports ends
      exact ⟨ends.isolates, Summary.files_eq reports, fun written => Report.output_json written reports⟩
    · intro apart front file back report split refuses
      rw [split] at there apart ⊢
      obtain ⟨earlier, later, same, counted, others⟩ := Job.processAll_erase there apart refuses
      exact ⟨⟨earlier, later, same, counted, others⟩,
        fun after reports => Job.ends_append_cons_iff there apart refuses⟩

/-- A component, and a file beside it that holds no text. -/
def brokenCard : FileStore where
  files := [(["ws".toList, "A.svelte".toList], .text card), (["ws".toList, "B.svelte".toList], .binary)]
  folders := [["ws".toList]]

/-- The store is a tree of files. -/
theorem isTree_brokenCard : brokenCard.IsTree where
  named := by
    unfold FileStore.Named IsEntry
    decide +kernel
  fileInside := by decide +kernel
  folderInside := by decide +kernel
  apart := by decide +kernel

/-- The paths in front of it lead down. -/
theorem leadDown_brokenCard : (writeInto "." "out").LeadDown brokenCard (Path.ofString "/ws")
    (Path.ofString "out") where
  given := rfl
  absolute := by decide
  plain := by unfold Path.IsPlain; decide +kernel
  within := by decide +kernel
  apart := by decide +kernel

/-- The component is processed and the other file refused, and without this one the run is the same.
-/
theorem start_isolates_failures_brokenCard :
    ∃ plan moved refused, plan.files =
        [Path.ofString "/ws/././A.svelte", Path.ofString "/ws/././B.svelte"] ∧
      Plan.ofArguments brokenCard (Path.ofString "/ws") (writeInto "." "out") = .ok plan ∧
      plan.job.Refuses brokenCard (Path.ofString "/ws/././B.svelte") refused ∧
      (start brokenCard (.ok (Path.ofString "/ws")) (writeInto "." "out")).2 =
        .ok [moved, refused] ∧
      plan.job.processAll brokenCard [Path.ofString "/ws/././A.svelte"] =
        ((start brokenCard (.ok (Path.ofString "/ws")) (writeInto "." "out")).1, [moved]) := by
  have isFound : ((Selection.ofArguments brokenCard (Path.ofString "/ws")
        (writeInto "." "out")).toOption.bind fun selection =>
      (selection.filesAtAll brokenCard (writeInto "." "out").paths).toOption) =
      some [Path.ofString "/ws/././A.svelte", Path.ofString "/ws/././B.svelte"] := by
    decide +kernel
  have sorted : [Path.ofString "/ws/././A.svelte", Path.ofString "/ws/././B.svelte"].Pairwise
      Path.IsBefore := by
    unfold Path.IsBefore
    decide +kernel
  obtain ⟨plan, planned, files⟩ := Plan.exists_of_filesAtAll isFound
  rw [Path.arrange_of_pairwise sorted] at files
  have refuses : plan.job.Refuses brokenCard (Path.ofString "/ws/././B.svelte") _ :=
    .unreadable (by decide +kernel)
  have apart := leadDown_brokenCard.fromRoot.isApart isTree_brokenCard.named planned
  have isBase : (writeInto "." "out").base (.ok (Path.ofString "/ws")) = .ok (Path.ofString "/ws") := by
    rfl
  have started : (start brokenCard (.ok (Path.ofString "/ws")) (writeInto "." "out")).2 =
      .ok (plan.job.processAll brokenCard plan.files).2 := by
    simp only [start, isBase, run, planned]
    rfl
  obtain ⟨base, other, sameBase, again, -, -, ends, always, isolated⟩ :=
    (start_isolates_failures isTree_brokenCard (.ok (Path.ofString "/ws"))
      (writeInto "." "out")).2 _ started
  obtain rfl := Except.ok.inj (isBase.symm.trans sameBase)
  obtain rfl := Except.ok.inj (planned.symm.trans again)
  obtain ⟨⟨earlier, later, same, counted, others⟩, -⟩ :=
    isolated apart [Path.ofString "/ws/././A.svelte"] (Path.ofString "/ws/././B.svelte") [] _ files
      refuses
  have total := congrArg List.length (always _ _ ends).1.paths
  rw [same, files] at total
  obtain ⟨moved, rfl⟩ := List.length_eq_one_iff.mp counted
  obtain rfl : later = [] := by simpa using total
  rw [same] at started
  exact ⟨plan, moved, _, files, planned, refuses, started, others⟩

end ClassHoist
