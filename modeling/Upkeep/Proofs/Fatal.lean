import Upkeep.Proofs.Footprint

/-!
# Fatal runs

A run that was asked for a job fails for two reasons only: the settings
cannot be loaded, or the job works on templates and there is no directory
of templates (`Invocation.Blocked`). Both are found before anything is
printed or written. Nothing that can happen to a file ends a run. So a run
either says nothing and leaves the disk alone, or prints the whole report
of its job (`Job.Reports`), and which of the two it is depends on `Blocked`
alone (`Program.run_fatal`).

That the stock rules are never refused and that a directory can always be
listed is where the remaining failures of the commands go
(`exists_processes`).
-/

namespace Upkeep

/-! ## Whole reports -/

/-- What the line of a file starts with, by the kind of its outcome. -/
def OutcomeKind.mark : OutcomeKind → Text
  | updated => "✓ Updated: ".toList
  | unchanged => "  No change: ".toList
  | notFound => "⚠ Not found: ".toList
  | error => "✗ Error: ".toList

/-- What the line of a file adds behind its name. -/
def Outcome.detail : Outcome → Text
  | error cause => " - ".toList ++ cause
  | _ => []

def FileReport.shown (f : FileReport) : Text :=
  f.outcome.kind.mark ++ f.path.displayName ++ f.outcome.detail

/-- The lines below those of the files, with these numbers in them. -/
def summaryLines (mode : WriteMode) (counted : OutcomeKind → Nat) (total : Nat) : List Text :=
  let line (label : String) (n : Nat) : Text :=
    label.toList ++ ": ".toList ++ Nat.toDigits 10 n ++ " files".toList
  [[],
   (if mode = .dryRun then "=== Summary (dry run) ===" else "=== Summary ===").toList,
   line "Updated" (counted .updated),
   line "Unchanged" (counted .unchanged),
   line "Not found" (counted .notFound),
   line "Errors" (counted .error),
   line "Total" total]

theorem FileReport.line_eq_shown (f : FileReport) :
    f.outcome.line f.path.displayName = f.shown := by
  obtain ⟨path, outcome⟩ := f
  cases outcome with
  | error cause => exact List.append_assoc _ " - ".toList cause
  | _ => exact (List.append_nil _).symm

theorem Report.lines_eq (r : Report) :
    r.lines = r.files.map FileReport.shown ++ summaryLines r.mode r.count r.total := by
  have hfiles : r.files.map (fun f => f.outcome.line f.path.displayName)
      = r.files.map FileReport.shown := List.map_congr_left fun f _ => f.line_eq_shown
  have hheading : heading r.mode
      = (if r.mode = .dryRun then "=== Summary (dry run) ===" else "=== Summary ===").toList := by
    cases r.mode <;> rfl
  rw [lines, hfiles, hheading]
  rfl

def countKind (files : List FileReport) (kind : OutcomeKind) : Nat :=
  (files.map (·.outcome.kind)).count kind

/-- The lines of the whole report on some files: one for each of them, and
a summary that counts them. -/
def batchLines (title : Text) (mode : WriteMode) (files : List FileReport) : List Text :=
  [title, []] ++ files.map FileReport.shown ++ summaryLines mode (countKind files) files.length
    ++ [[], "Done!".toList]

theorem Report.mode_record (r : Report) (p : Path) (outcome : Outcome) :
    (r.record p outcome).mode = r.mode := by
  cases outcome <;> rfl

theorem runFrom_mode (set : RuleSet) (mode : WriteMode) (report : Report) (d : Disk)
    (paths : List Path) : (runFrom set mode report d paths).1.mode = report.mode := by
  induction paths generalizing report d with
  | nil => rfl
  | cons p paths ih => rw [runFrom, ih, Report.mode_record]

/-- **What is printed of a batch** is the whole report on its files: the
counters that it kept are the numbers of the outcomes it shows. -/
theorem batchOutput_runBatch (title : Text) (set : RuleSet) (mode : WriteMode) (d : Disk)
    (paths : List Path) :
    batchOutput title (runBatch set mode d paths).1
      = (batchLines title mode (runBatch set mode d paths).1.files).flatMap (· ++ ['\n']) := by
  have hmode : (runBatch set mode d paths).1.mode = mode := runFrom_mode set mode _ d paths
  have hcount : (runBatch set mode d paths).1.count
      = countKind (runBatch set mode d paths).1.files := by
    funext kind
    rw [runBatch_count, runBatch_files, countKind]
  rw [batchOutput, Report.render, Report.lines_eq, hmode, hcount, batchLines]
  simp only [Text.ofLines, ← List.flatMap_append, Report.total, List.append_assoc]

/-- The lines that a template is shown with. -/
inductive ImportRecord.Shows : ImportRecord → List Text → Prop
  | missing (generator template : Text) :
      Shows ⟨generator, template, .missing⟩ ["⚠ ".toList ++ template ++ " - NOT FOUND".toList]
  | unreadable (generator template cause : Text) :
      Shows ⟨generator, template, .unreadable cause⟩
        ["✗ ".toList ++ template ++ " - ".toList ++ cause]
  | dynamicOnly (generator template : Text) :
      Shows ⟨generator, template, .dynamicOnly⟩
        ["✓ ".toList ++ generator ++ "ImportManager - No base imports (dynamic only)".toList, []]
  | literal (generator template : Text) (imports : List Text) :
      Shows ⟨generator, template, .literal imports⟩
        (["✓ ".toList ++ generator ++ "ImportManager:".toList, "  File: ".toList ++ template,
            "  Base imports:".toList]
          ++ imports.map ("    - ".toList ++ ·) ++ [[]])

theorem ImportRecord.shows_lines (r : ImportRecord) : r.Shows r.lines := by
  obtain ⟨generator, template, status⟩ := r
  cases status with
  | missing => exact .missing generator template
  | unreadable cause => exact .unreadable generator template cause
  | dynamicOnly => exact .dynamicOnly generator template
  | literal imports => exact .literal generator template imports

/-- The text is the whole report of a job: a record for each mapped
template, or the outcome of each file that the job processes. -/
inductive Job.Reports (s : Settings) (mode : WriteMode) (d : Disk) : Job → Text → Prop
  | imports {records : List ImportRecord} {blocks : List (List Text)}
      (hrecords : records = analyzeTemplates d s.templatesPath s.mappings)
      (hall : records.map (fun r => ⟨r.template, r.generator⟩) = s.mappings)
      (hshown : List.Forall₂ ImportRecord.Shows records blocks) :
      Reports s mode d .imports
        (([Job.imports.title s, []] ++ blocks.flatten).flatMap (· ++ ['\n']))
  | batch {job : Job} {set : RuleSet} {paths : List Path} {files : List FileReport}
      (hjob : job.Processes s d set paths) (hfiles : files = (runBatch set mode d paths).1.files)
      (hall : files.map (·.path) = paths) :
      Reports s mode d job ((batchLines (job.title s) mode files).flatMap (· ++ ['\n']))

/-! ## When a job can be run -/

theorem Disk.exists_listFiles {d : Disk} {dir : Path} (h : d.isDir dir = true) (ext : Text) :
    ∃ paths, d.listFiles dir ext = .ok paths := by
  unfold isDir find? at h
  cases hres : d.resolve dir with
  | error fault => simp [hres] at h
  | ok found =>
      obtain ⟨loc, node⟩ := found
      cases node with
      | dir mode => exact ⟨_, by rw [listFiles, hres]⟩
      | file mode bytes => simp [hres, Node.isDir] at h
      | link target => simp [hres, Node.isDir] at h

namespace Job

/-- The job works on templates, and their directory is none. -/
def LacksTemplates (job : Job) (s : Settings) (d : Disk) : Prop :=
  (job = .imports ∨ job = .templates) ∧ d.isDir s.templatesPath = false

/-- A job that revises files always has rules and paths, unless it lacks
the templates. -/
theorem exists_processes {job : Job} {s : Settings} {d : Disk} (hjob : job ≠ .imports)
    (h : ¬ job.LacksTemplates s d) : ∃ set paths, job.Processes s d set paths := by
  cases job with
  | imports => exact absurd rfl hjob
  | generators =>
      obtain ⟨set, hset, -⟩ := Stock.exists_generatorRules
      exact ⟨set, _, .generators hset⟩
  | templates =>
      have hdir : d.isDir s.templatesPath = true := by
        cases hdir : d.isDir s.templatesPath with
        | true => rfl
        | false => exact absurd ⟨.inr rfl, hdir⟩ h
      obtain ⟨set, hset, -⟩ := Stock.exists_templateRules
      obtain ⟨paths, hlist⟩ := Disk.exists_listFiles hdir s.templateExtension
      exact ⟨set, paths, .templates hset hlist⟩

theorem not_processes_of_lacksTemplates {job : Job} {s : Settings} {d : Disk}
    (h : job.LacksTemplates s d) (set : RuleSet) (paths : List Path) :
    ¬ job.Processes s d set paths := by
  intro hjob
  obtain ⟨hneeds, hdir⟩ := h
  cases hjob with
  | generators => simp at hneeds
  | templates hset hlist =>
      rw [Disk.isDir_of_listFiles hlist] at hdir
      cases hdir

/-- A job ends as it should: at once if it lacks the templates, and with
its whole report otherwise. -/
def Ends (job : Job) (s : Settings) (mode : WriteMode) (d : Disk) (e : Effect Unit) : Prop :=
  (job.LacksTemplates s d ∧ ∃ fatal, e = .fail d fatal)
    ∨ ¬ job.LacksTemplates s d ∧ e.result = .ok () ∧ job.Reports s mode d e.output

theorem ends_of_yields {job : Job} {s : Settings} {mode : WriteMode} {d : Disk}
    {e : Effect Report} (hjob : job ≠ .imports) (h : job.Yields s mode d e) :
    job.Ends s mode d (e.map fun _ => ()) := by
  by_cases hlacks : job.LacksTemplates s d
  · refine .inl ⟨hlacks, ?_⟩
    rcases h with ⟨fatal, rfl, -⟩ | ⟨set, paths, hprocess, -⟩
    · exact ⟨fatal, rfl⟩
    · exact absurd hprocess (not_processes_of_lacksTemplates hlacks set paths)
  · refine .inr ⟨hlacks, ?_⟩
    rcases h with ⟨fatal, rfl, hnone⟩ | ⟨set, paths, hprocess, rfl⟩
    · obtain ⟨set, paths, hprocess⟩ := exists_processes hjob hlacks
      exact absurd hprocess (hnone set paths)
    · refine ⟨rfl, ?_⟩
      show job.Reports s mode d (batchOutput (job.title s) (runBatch set mode d paths).1)
      rw [batchOutput_runBatch]
      exact .batch hprocess rfl (by rw [runBatch_files, map_path_outcomes])

theorem ends_analyzeImports (s : Settings) (mode : WriteMode) (d : Disk) :
    Job.imports.Ends s mode d ((analyzeImports s d).map fun _ => ()) := by
  unfold analyzeImports
  split
  · rename_i hdir
    refine .inr ⟨fun hlacks => ?_, rfl, ?_⟩
    · rw [hlacks.2] at hdir
      cases hdir
    · show Job.imports.Reports s mode d (renderImports (analyzeTemplates d s.templatesPath s.mappings))
      rw [renderImports, List.flatMap_def]
      refine .imports rfl ?_ ?_
      · rw [analyzeTemplates, List.map_map]
        exact List.map_id s.mappings
      · rw [List.forall₂_map_right_iff, List.forall₂_same]
        exact fun r _ => r.shows_lines
  · rename_i hdir
    exact .inl ⟨⟨.inl rfl, by simpa using hdir⟩, _, rfl⟩

end Job

namespace Invocation

theorem ends_runWith (inv : Invocation) (s : Settings) (d : Disk) :
    inv.job.Ends s (.ofDryRun inv.dryRun) d (inv.runWith s d) := by
  obtain ⟨job, root, config, dryRun⟩ := inv
  cases job with
  | imports => exact Job.ends_analyzeImports s _ d
  | generators => exact Job.ends_of_yields (by simp) (yields_simplifyGenerators s _ d)
  | templates => exact Job.ends_of_yields (by simp) (yields_simplifyTemplates s _ d)

/-- The settings cannot be loaded, or the job works on templates and their
directory is none. -/
def Blocked (inv : Invocation) (d : Disk) : Prop :=
  (∃ e, Settings.load d inv.root inv.config = .error e)
    ∨ ∃ s, Settings.load d inv.root inv.config = .ok s ∧ inv.job.LacksTemplates s d

/-- **What an invocation leaves behind**: nothing if it is blocked, and the
whole report of its job otherwise. -/
theorem run_cases (inv : Invocation) (d : Disk) :
    (inv.Blocked d ∧ ∃ fatal, inv.run d = .fail d fatal)
      ∨ ¬ inv.Blocked d ∧ (inv.run d).result = .ok ()
        ∧ ∃ s, Settings.load d inv.root inv.config = .ok s
          ∧ inv.job.Reports s (.ofDryRun inv.dryRun) d (inv.run d).output := by
  unfold run Blocked
  cases hload : Settings.load d inv.root inv.config with
  | error e => exact .inl ⟨.inl ⟨e, rfl⟩, _, rfl⟩
  | ok s =>
      rcases inv.ends_runWith s d with ⟨hlacks, hfail⟩ | ⟨hlacks, hresult, hreport⟩
      · exact .inl ⟨.inr ⟨s, rfl, hlacks⟩, hfail⟩
      · refine .inr ⟨?_, hresult, s, rfl, hreport⟩
        rintro (⟨e, he⟩ | ⟨s', hs', hlacks'⟩)
        · cases he
        · obtain rfl := Except.ok.inj hs'
          exact hlacks hlacks'

end Invocation

/-! ## Whole runs -/

namespace Program

/-- **Fatal runs.** A run that was asked for a job fails exactly if the
settings cannot be loaded, or if the job works on templates and their
directory is none. Then it prints nothing and leaves the disk alone. In
all other cases it prints the whole report of the job. -/
theorem run_fatal {args : List Text} {inv : Invocation} (d : Disk)
    (h : Request.ofArguments args = .run inv) :
    ((run args d).exitCode = 1 ↔
        (∃ e, Settings.load d inv.root inv.config = .error e)
          ∨ ∃ s, Settings.load d inv.root inv.config = .ok s
            ∧ (inv.job = .imports ∨ inv.job = .templates) ∧ d.isDir s.templatesPath = false)
      ∧ ((run args d).exitCode = 1 → (run args d).output = [] ∧ (run args d).disk = d)
      ∧ ((run args d).exitCode ≠ 1 → (run args d).exitCode = 0
          ∧ ∃ s, Settings.load d inv.root inv.config = .ok s
            ∧ inv.job.Reports s (.ofDryRun inv.dryRun) d (run args d).output) := by
  rw [run_of_request d h]
  rcases inv.run_cases d with ⟨hblocked, fatal, hfail⟩ | ⟨hfree, hresult, hreport⟩
  · rw [hfail]
    exact ⟨⟨fun _ => hblocked, fun _ => rfl⟩, fun _ => ⟨rfl, rfl⟩, fun hcode => absurd rfl hcode⟩
  · have hrun : ofEffect (inv.run d) = ⟨0, (inv.run d).output, [], (inv.run d).disk⟩ := by
      unfold ofEffect
      rw [hresult]
    rw [hrun]
    refine ⟨⟨fun hcode => ?_, fun hblocked => absurd hblocked hfree⟩, fun hcode => ?_,
      fun _ => ⟨rfl, hreport⟩⟩
    · cases hcode
    · cases hcode

/-- An empty directory has no templates to revise, and a report on the
missing generators can be made. -/
theorem run_fatal_fresh :
    (run ["templates".toList] .fresh).exitCode = 1
      ∧ (run ["templates".toList] .fresh).output = []
      ∧ (run ["templates".toList] .fresh).disk = .fresh
      ∧ ∃ s, Settings.load .fresh Path.selfName none = .ok s
        ∧ Job.generators.Reports s .write .fresh (run ["generators".toList] .fresh).output := by
  have hload : Settings.load .fresh Path.selfName none = .ok (.default Path.selfName) := rfl
  have htemplates : Request.ofArguments ["templates".toList]
      = .run ⟨.templates, Path.selfName, none, false⟩ := rfl
  have hgenerators : Request.ofArguments ["generators".toList]
      = .run ⟨.generators, Path.selfName, none, false⟩ := rfl
  have hfail := (run_fatal .fresh htemplates).1.mpr (.inr ⟨_, hload, .inr rfl, rfl⟩)
  have hfree : (run ["generators".toList] .fresh).exitCode ≠ 1 := by
    intro hcode
    rcases (run_fatal .fresh hgenerators).1.mp hcode with ⟨e, he⟩ | ⟨s, -, hjob, -⟩
    · cases hload.symm.trans he
    · simp at hjob
  obtain ⟨houtput, hdisk⟩ := (run_fatal .fresh htemplates).2.1 hfail
  exact ⟨hfail, houtput, hdisk, ((run_fatal .fresh hgenerators).2.2 hfree).2⟩

end Program

end Upkeep
