import Upkeep.Program
import Upkeep.Proofs.Batch
import Upkeep.Proofs.Replacement
import Upkeep.Proofs.Stock

/-!
# The footprint of a run

What a run of the program can do to the disk, for all arguments and all
disks. Two descriptions of a batch do without its loop.

- `Disk.Patched` holds of every batch. A node that differs is a file with
  the revision of a text from the disk; it stands in the place of the file
  that held the text, or of a link. This is kept by each step
  (`Disk.Patched.step`).
- `Disk.Edited` holds where real paths can be told. The outline of the disk
  stays, a node differs only if it is a file that one of the paths leads
  to, and then it holds what the rules make of the text it held. That is
  read off the closed form of a batch (`Disk.edited_runBatch`).

`Program.Edits` says when a run comes to a batch that writes. All other
runs end before that, because of the arguments, the settings or a missing
directory, or are dry, and then the disk is the same (`Program.run_cases`).
The two cases make up `Program.run_footprint`.
-/

namespace Upkeep

namespace Disk

/-! ## What every batch changes -/

/-- A file with the revision of a text from the disk, in the place of the
file that held the text or of a link. -/
def IsPatch (set : RuleSet) (d : Disk) (loc : Location) (node : Node) : Prop :=
  ∃ source mode bytes t r, d.node? source = some (.file mode bytes)
    ∧ Utf8.decode bytes = .ok t ∧ set.revise t = .ok r ∧ r.changed = true
    ∧ node = .file mode (Utf8.encode r.text)
    ∧ (source = loc ∨ ∃ target, d.node? loc = some (.link target))

/-- `d'` is `d` after the rules ran over some of its files. -/
structure Patched (set : RuleSet) (d d' : Disk) : Prop where
  /-- No temporary file is left behind. -/
  drafts : d'.drafts = d.drafts
  workDir : d'.workDir = d.workDir
  nodes : ∀ loc, d'.node? loc = d.node? loc
    ∨ ∃ node, d'.node? loc = some node ∧ d.IsPatch set loc node

namespace Patched

variable {set : RuleSet} {d d' : Disk}

theorem refl (set : RuleSet) (d : Disk) : d.Patched set d := ⟨rfl, rfl, fun _ => .inl rfl⟩

/-- A text that the rules still change is the one that was there before:
a revised text has come to rest. -/
theorem node?_of_changed (h : d.Patched set d') {loc : Location} {mode : Nat}
    {bytes : List UInt8} {t : Text} {r : Revision} (hnode : d'.node? loc = some (.file mode bytes))
    (ht : Utf8.decode bytes = .ok t) (hr : set.revise t = .ok r) (hc : r.changed = true) :
    d.node? loc = some (.file mode bytes) := by
  rcases h.nodes loc with hsame | ⟨node, hpatch, source, mode', bytes', t', r', -, -, hr', hc', rfl, -⟩
  · exact hsame.symm.trans hnode
  · obtain ⟨rfl, rfl⟩ := Node.file.inj (Option.some.inj (hpatch.symm.trans hnode))
    obtain rfl := Except.ok.inj ((Utf8.decode_encode r'.text).symm.trans ht)
    rw [RuleSet.revise_text_of_changed hr' hc'] at hr
    obtain rfl := Except.ok.inj hr
    cases hc

theorem node?_of_link (h : d.Patched set d') {loc : Location} {target : Path}
    (hlink : d'.node? loc = some (.link target)) : d.node? loc = some (.link target) := by
  rcases h.nodes loc with hsame | ⟨node, hpatch, _, _, _, _, _, -, -, -, -, rfl, -⟩
  · exact hsame.symm.trans hlink
  · rw [hpatch] at hlink
    cases hlink

/-- **A step** only patches. -/
theorem step (h : d.Patched set d') (p : Path) :
    d.Patched set (reviseFile set .write d' p).2 := by
  rcases reviseFile_cases set d' p with
    ⟨-, -, hstep⟩ | ⟨loc, mode, bytes, t, r, hres, ht, hr, hc, -, -, hwrite⟩
  · rw [hstep]
    exact h
  · rw [hwrite]
    cases hclear : d'.clearance p with
    | error cause => exact h
    | ok place =>
        have hroot := (clearance_eq_ok_iff.mp hclear).root
        refine ⟨h.drafts, h.workDir, fun l => ?_⟩
        by_cases hl : l = place
        · subst hl
          have hsource := h.node?_of_changed (resolve_eq_ok_iff.mp hres).2 ht hr hc
          refine .inr ⟨_, node?_put_self d' hroot _, loc, mode, bytes, t, r, hsource, ht, hr, hc,
            rfl, ?_⟩
          rcases place_cases hres hclear with rfl | ⟨-, -, target, hlink⟩
          · exact .inl rfl
          · exact .inr ⟨target, h.node?_of_link hlink⟩
        · rw [show (d'.put place _).node? l = d'.node? l from node?_put_ne d' hl _]
          exact h.nodes l

theorem steps (h : d.Patched set d') (report : Report) (paths : List Path) :
    d.Patched set (runFrom set .write report d' paths).2 := by
  induction paths generalizing report d' with
  | nil => exact h
  | cons p paths ih => exact ih (h.step p) _

end Patched

/-- **A batch** only patches. -/
theorem patched_runBatch (set : RuleSet) (d : Disk) (paths : List Path) :
    d.Patched set (runBatch set .write d paths).2 :=
  (Patched.refl set d).steps (.empty .write) paths

/-! ## What a batch changes where real paths can be told -/

/-- `d'` is `d` after the rules ran over the files at some paths. -/
structure Edited (set : RuleSet) (paths : List Path) (d d' : Disk) : Prop where
  /-- The locations, the kinds, the modes and the links are the same, and
  so are the temporary files. -/
  outline_eq : d'.outline = d.outline
  /-- What differs is a file that a path leads to, and it was a text. -/
  only : ∀ loc, d'.node? loc ≠ d.node? loc →
    ∃ p ∈ paths, ∃ mode bytes t r, d.resolve p = .ok (loc, .file mode bytes) ∧ d.Clears p loc
      ∧ Utf8.decode bytes = .ok t ∧ set.revise t = .ok r ∧ r.changed = true
      ∧ d'.node? loc = some (.file mode (Utf8.encode r.text))
  /-- No text that the rules change is left out, unless something stands in
  the way. -/
  every : ∀ p ∈ paths, ∀ loc mode bytes t r, d.resolve p = .ok (loc, .file mode bytes) →
    d.Clears p loc → Utf8.decode bytes = .ok t → set.revise t = .ok r → r.changed = true →
      d'.node? loc = some (.file mode (Utf8.encode r.text))

/-- **A batch edits** the files its paths lead to. -/
theorem edited_runBatch (set : RuleSet) {d : Disk} {paths : List Path}
    (hreal : d.HasRealPaths paths) : d.Edited set paths (runBatch set .write d paths).2 := by
  rw [runBatch_snd set hreal]
  refine ⟨outline_reviseAt set _ d, fun loc hne => ?_, ?_⟩
  · rw [node?_reviseAt] at hne ⊢
    cases hnode : d.node? loc with
    | none =>
        rw [hnode] at hne
        exact absurd rfl hne
    | some node =>
        rw [hnode, Option.map_some] at hne
        -- some path updates this location, and the node is not its own revision
        by_cases hany : paths.any (d.updates · loc) = true
        · rw [if_pos hany] at hne
          obtain ⟨p, hp, hupdates⟩ := List.any_eq_true.mp hany
          obtain ⟨hlead, hcleared⟩ := (Bool.and_eq_true _ _).mp hupdates
          rcases Node.revised_cases set node with
            hsame | ⟨mode, bytes, t, r, rfl, ht, hr, hc, hrevised⟩
          · rw [hsame] at hne
            exact absurd rfl hne
          · have hres := resolve_eq_ok_iff.mpr ⟨(leadsTo_iff.mp hlead).1, hnode⟩
            refine ⟨p, hp, mode, bytes, t, r, hres, ?_, ht, hr, hc, ?_⟩
            · cases hclear : d.clearance p with
              | error cause =>
                  rw [hclear] at hcleared
                  cases hcleared
              | ok place =>
                  obtain rfl := place_of_realPath (hreal.realPath? hp hres) hclear
                  exact clearance_eq_ok_iff.mp hclear
            · rw [Option.map_some, if_pos hany, hrevised]
        · rw [if_neg hany] at hne
          exact absurd rfl hne
  · intro p hp loc mode bytes t r hres hclears ht hr hc
    have hany : paths.any (d.updates · loc) = true := by
      rw [hreal.any_updates hp hres, clearance_eq_ok_iff.mpr hclears]
      rfl
    rw [node?_reviseAt, (resolve_eq_ok_iff.mp hres).2, Option.map_some, if_pos hany,
      Node.revised_file ht hr hc]

/-- Only directories are listed. -/
theorem isDir_of_listFiles {d : Disk} {dir : Path} {ext : Text} {paths : List Path}
    (h : d.listFiles dir ext = .ok paths) : d.isDir dir = true := by
  rw [listFiles] at h
  split at h
  · rename_i loc mode hres
    simp [isDir, find?, hres, Node.isDir]
  · cases h

end Disk

/-! ## What a job works on -/

/-- The rules that a job runs, and the paths of the files it runs them
over. -/
inductive Job.Processes (s : Settings) (d : Disk) : Job → RuleSet → List Path → Prop
  | generators {set : RuleSet} (hset : Stock.generatorRules = .ok set) :
      Processes s d .generators set s.generatorPaths
  | templates {set : RuleSet} {paths : List Path} (hset : Stock.templateRules = .ok set)
      (hlist : d.listFiles s.templatesPath s.templateExtension = .ok paths) :
      Processes s d .templates set paths

theorem analyzeImports_disk (s : Settings) (d : Disk) : (analyzeImports s d).disk = d := by
  unfold analyzeImports
  split
  · rfl
  · rfl

def Job.title (s : Settings) : Job → Text
  | imports => "=== Template Imports Analysis ===".toList
  | generators => "Processing aggregate generators...".toList
  | templates => "Processing templates in: ".toList ++ s.templatesPath

/-- A job with nothing to process fails at once, and any other runs a batch
over what it processes. -/
def Job.Yields (job : Job) (s : Settings) (mode : WriteMode) (d : Disk) (e : Effect Report) :
    Prop :=
  (∃ fatal, e = .fail d fatal ∧ ∀ set paths, ¬ job.Processes s d set paths)
    ∨ ∃ set paths, job.Processes s d set paths ∧ e = printBatch (job.title s) set mode d paths

theorem yields_simplifyGenerators (s : Settings) (mode : WriteMode) (d : Disk) :
    Job.generators.Yields s mode d (simplifyGenerators s mode d) := by
  unfold simplifyGenerators
  cases hset : Stock.generatorRules with
  | error e =>
      refine .inl ⟨_, rfl, fun set paths hjob => ?_⟩
      cases hjob with
      | generators hok =>
          rw [hset] at hok
          cases hok
  | ok set => exact .inr ⟨set, _, .generators hset, rfl⟩

theorem yields_simplifyTemplates (s : Settings) (mode : WriteMode) (d : Disk) :
    Job.templates.Yields s mode d (simplifyTemplates s mode d) := by
  unfold simplifyTemplates
  by_cases hdir : d.isDir s.templatesPath = true
  · simp only [if_pos hdir]
    cases hset : Stock.templateRules with
    | error e =>
        refine .inl ⟨_, rfl, fun set paths hjob => ?_⟩
        cases hjob with
        | templates hok hlist =>
            rw [hset] at hok
            cases hok
    | ok set =>
        cases hlist : d.listFiles s.templatesPath s.templateExtension with
        | error e =>
            refine .inl ⟨_, rfl, fun set paths hjob => ?_⟩
            cases hjob with
            | templates hok hlisted =>
                rw [hlist] at hlisted
                cases hlisted
        | ok paths => exact .inr ⟨set, paths, .templates hset hlist, rfl⟩
  · simp only [if_neg hdir]
    refine .inl ⟨_, rfl, fun set paths hjob => ?_⟩
    cases hjob with
    | templates hok hlist => exact hdir (Disk.isDir_of_listFiles hlist)

theorem Job.Yields.cases {job : Job} {s : Settings} {mode : WriteMode} {d : Disk}
    {e : Effect Report} (h : job.Yields s mode d e) (f : Report → Unit) :
    ((e.map f).disk = d ∧ ∀ set paths, ¬ job.Processes s d set paths)
      ∨ ∃ set paths, job.Processes s d set paths ∧ (e.map f).result = .ok ()
        ∧ (e.map f).disk = (runBatch set mode d paths).2 := by
  rcases h with ⟨fatal, rfl, hnone⟩ | ⟨set, paths, hjob, rfl⟩
  · exact .inl ⟨rfl, hnone⟩
  · exact .inr ⟨set, paths, hjob, rfl, rfl⟩

/-- **An invocation** either leaves the disk alone or runs a batch over
what its job processes. -/
theorem Invocation.runWith_cases (inv : Invocation) (s : Settings) (d : Disk) :
    ((inv.runWith s d).disk = d ∧ ∀ set paths, ¬ inv.job.Processes s d set paths)
      ∨ ∃ set paths, inv.job.Processes s d set paths ∧ (inv.runWith s d).result = .ok ()
        ∧ (inv.runWith s d).disk = (runBatch set (.ofDryRun inv.dryRun) d paths).2 := by
  obtain ⟨job, root, config, dryRun⟩ := inv
  cases job with
  | imports =>
      refine .inl ⟨analyzeImports_disk s d, fun set paths hjob => ?_⟩
      cases hjob
  | generators => exact (yields_simplifyGenerators s _ d).cases _
  | templates => exact (yields_simplifyTemplates s _ d).cases _

/-! ## Whole runs -/

namespace Program

/-- The arguments ask for a job that writes, and on this disk it comes to
running these rules over the files at these paths. -/
def Edits (args : List Text) (d : Disk) (set : RuleSet) (paths : List Path) : Prop :=
  ∃ inv s, Request.ofArguments args = .run inv ∧ inv.dryRun = false
    ∧ Settings.load d inv.root inv.config = .ok s ∧ inv.job.Processes s d set paths

theorem disk_ofEffect (e : Effect Unit) : (ofEffect e).disk = e.disk := by
  unfold ofEffect
  split
  · rfl
  · rfl

theorem run_of_request {args : List Text} {inv : Invocation} (d : Disk)
    (h : Request.ofArguments args = .run inv) : run args d = ofEffect (inv.run d) := by
  unfold run
  rw [h]

theorem not_edits_of_request {args : List Text} {d : Disk}
    (h : ∀ inv, Request.ofArguments args ≠ .run inv) (set : RuleSet) (paths : List Path) :
    ¬ Edits args d set paths := by
  rintro ⟨inv, s, hargs, -⟩
  exact h inv hargs

/-- **A run** either leaves the disk alone or ends well after a batch. -/
theorem run_cases (args : List Text) (d : Disk) :
    ((run args d).disk = d ∧ ∀ set paths, ¬ Edits args d set paths)
      ∨ ∃ set paths, Edits args d set paths ∧ (run args d).exitCode = 0
        ∧ (run args d).disk = (runBatch set .write d paths).2 := by
  cases hargs : Request.ofArguments args with
  | help => exact .inl ⟨by simp only [run, hargs], not_edits_of_request (by simp [hargs])⟩
  | version => exact .inl ⟨by simp only [run, hargs], not_edits_of_request (by simp [hargs])⟩
  | invalid => exact .inl ⟨by simp only [run, hargs], not_edits_of_request (by simp [hargs])⟩
  | run inv =>
      -- the invocation of an edit is this one
      have hinv : ∀ {set paths}, Edits args d set paths →
          inv.dryRun = false ∧ ∃ s, Settings.load d inv.root inv.config = .ok s
            ∧ inv.job.Processes s d set paths := by
        rintro set paths ⟨inv', s, hargs', hdry, hload, hjob⟩
        obtain rfl : inv' = inv := Request.run.inj (hargs'.symm.trans hargs)
        exact ⟨hdry, s, hload, hjob⟩
      rw [run_of_request d hargs, disk_ofEffect]
      unfold Invocation.run
      cases hload : Settings.load d inv.root inv.config with
      | error e =>
          refine .inl ⟨rfl, fun set paths hedits => ?_⟩
          obtain ⟨-, s, hok, -⟩ := hinv hedits
          rw [hload] at hok
          cases hok
      | ok s =>
          rcases inv.runWith_cases s d with ⟨hdisk, hnone⟩ | ⟨set, paths, hjob, hresult, hdisk⟩
          · refine .inl ⟨hdisk, fun set paths hedits => ?_⟩
            obtain ⟨-, s', hok, hjob⟩ := hinv hedits
            rw [hload] at hok
            obtain rfl := Except.ok.inj hok
            exact hnone set paths hjob
          · cases hdry : inv.dryRun with
            | true =>
                refine .inl ⟨?_, fun set paths hedits => ?_⟩
                · rw [hdry] at hdisk
                  exact hdisk.trans (runBatch_snd_dryRun set d paths)
                · have := (hinv hedits).1
                  rw [hdry] at this
                  cases this
            | false =>
                rw [hdry] at hdisk
                refine .inr ⟨set, paths, ⟨inv, s, hargs, hdry, hload, hjob⟩, ?_, hdisk⟩
                unfold ofEffect
                rw [hresult]

/-- **The footprint of a run.** Whatever the arguments and the disk, either
the run ends well after a batch, or the disk stays as a whole. It does if
the run fails, if it is dry, and if it only reports imports.

A batch only patches the disk. If the real paths of the files of the job
can be told, it edits these files, and then the outline of the disk stays. -/
theorem run_footprint (args : List Text) (d : Disk) :
    ((∃ set paths, Edits args d set paths ∧ (run args d).exitCode = 0
          ∧ d.Patched set (run args d).disk
          ∧ (d.HasRealPaths paths → d.Edited set paths (run args d).disk))
        ∨ (∀ set paths, ¬ Edits args d set paths) ∧ (run args d).disk = d)
      ∧ ((run args d).exitCode ≠ 0 → (run args d).disk = d)
      ∧ ∀ inv, Request.ofArguments args = .run inv → inv.job = .imports ∨ inv.dryRun = true →
          (run args d).disk = d := by
  rcases run_cases args d with ⟨hdisk, hnone⟩ | ⟨set, paths, hedits, hcode, hdisk⟩
  · exact ⟨.inr ⟨hnone, hdisk⟩, fun _ => hdisk, fun _ _ _ => hdisk⟩
  · have hpatched := Disk.patched_runBatch set d paths
    have hedited : d.HasRealPaths paths → d.Edited set paths (run args d).disk :=
      fun hreal => hdisk ▸ Disk.edited_runBatch set hreal
    refine ⟨.inl ⟨set, paths, hedits, hcode, hdisk ▸ hpatched, hedited⟩,
      fun hfail => absurd hcode hfail, fun inv hinv hstill => ?_⟩
    obtain ⟨inv', s, hargs, hdry, -, hjob⟩ := hedits
    obtain rfl : inv' = inv := Request.run.inj (hargs.symm.trans hinv)
    rcases hstill with himports | htrue
    · rw [himports] at hjob
      cases hjob
    · rw [hdry] at htrue
      cases htrue

/-- A generator source with a legacy block. -/
def legacySource : Text :=
  ("// 准备注释行\nval commentLines = SqlSchemaUtils.getComment(table)\nwith(context) \x7b\n"
    ++ "resultContext.putContext(tag, \"commentLines\", commentLines)\n\x7d\n").toList

theorem exists_revise_legacySource {set : RuleSet} (hset : Stock.generatorRules = .ok set) :
    ∃ r, set.revise legacySource = .ok r ∧ r.changed = true := by
  obtain ⟨set', hset', hrules⟩ := Stock.exists_generatorRules
  obtain rfl : set' = set := Except.ok.inj (hset'.symm.trans hset)
  obtain ⟨r, hr, hquiet⟩ := Stock.settles_generators hrules legacySource
  have hmatch : Stock.generatorMatcher.isMatch legacySource = true := by decide +kernel
  refine ⟨r, hr, (RuleSet.revise_eq_ok hr).2.1.mpr fun hsame => ?_⟩
  have hnone := hquiet Stock.generatorRule (by simp [hrules])
  rw [hsame, Stock.generatorRule, hmatch] at hnone
  cases hnone

/-- A settings file that names one generator source. -/
def settingsFor (source : Name) : Text :=
  "[template_tidy]\ngenerator_sources = [\"".toList ++ source ++ "\"]\n".toList

/-- A run of the generator job edits the sources in the settings. -/
theorem edits_generators_iff {d : Disk} {source : Path}
    (h : (Settings.load d Path.selfName none).toOption.map (·.generatorPaths) = some [source])
    {set : RuleSet} {paths : List Path} :
    Edits ["generators".toList] d set paths
      ↔ Stock.generatorRules = .ok set ∧ paths = [source] := by
  cases hload : Settings.load d Path.selfName none with
  | error e =>
      rw [hload] at h
      cases h
  | ok s =>
      rw [hload] at h
      have hpaths : s.generatorPaths = [source] := Option.some.inj h
      constructor
      · rintro ⟨inv, s', hargs, -, hload', hjob⟩
        obtain rfl : ⟨.generators, Path.selfName, none, false⟩ = inv := Request.run.inj hargs
        obtain rfl : s = s' := Except.ok.inj (hload.symm.trans hload')
        cases hjob with
        | generators hset => exact ⟨hset, hpaths⟩
      · rintro ⟨hset, rfl⟩
        exact ⟨⟨.generators, Path.selfName, none, false⟩, s, rfl, rfl, hload, hpaths ▸ .generators hset⟩

def project : Disk :=
  Disk.fresh.put (Disk.fresh.workDir ++ [Settings.fileName])
      (.file Node.fileMode (Utf8.encode (settingsFor "a.kt".toList)))
    |>.put (Disk.fresh.workDir ++ ["a.kt".toList])
      (.file Node.fileMode (Utf8.encode legacySource))

theorem run_footprint_generators :
    ∃ set, Stock.generatorRules = .ok set ∧ (run ["generators".toList] project).exitCode = 0
      ∧ project.Edited set ["./a.kt".toList] (run ["generators".toList] project).disk
      ∧ (run ["generators".toList] project).disk.node? (Disk.fresh.workDir ++ ["a.kt".toList])
        ≠ project.node? (Disk.fresh.workDir ++ ["a.kt".toList]) := by
  have hpaths : (Settings.load project Path.selfName none).toOption.map (·.generatorPaths)
      = some ["./a.kt".toList] := by decide +kernel
  obtain ⟨set, hset, -⟩ := Stock.exists_generatorRules
  rcases (run_footprint ["generators".toList] project).1 with
    ⟨set', paths, hedits, hcode, -, hedited⟩ | ⟨hnone, -⟩
  · obtain ⟨hset, rfl⟩ := (edits_generators_iff hpaths).mp hedits
    have hedited := hedited (by decide +kernel)
    refine ⟨set', hset, hcode, hedited, ?_⟩
    obtain ⟨r, hr, hc⟩ := exists_revise_legacySource hset
    have hloc : project.locate "./a.kt".toList = .ok (Disk.fresh.workDir ++ ["a.kt".toList]) := by
      decide +kernel
    have hres := Disk.resolve_eq_ok_iff.mpr ⟨hloc, Disk.node?_put_self _ (by simp) _⟩
    have hclear : project.clearance "./a.kt".toList
        = .ok (Disk.fresh.workDir ++ ["a.kt".toList]) := by decide +kernel
    rw [hedited.every _ List.mem_cons_self _ _ _ _ r hres (Disk.clearance_eq_ok_iff.mp hclear)
      (Utf8.decode_encode _) hr hc, (Disk.resolve_eq_ok_iff.mp hres).2]
    intro hsame
    have htext := congrArg Utf8.decode (Node.file.inj (Option.some.inj hsame)).2
    rw [Utf8.decode_encode, Utf8.decode_encode] at htext
    exact (RuleSet.revise_eq_ok hr).2.1.mp hc (Except.ok.inj htext)
  · exact absurd ((edits_generators_iff hpaths).mpr ⟨hset, rfl⟩) (hnone _ _)

/-- The outline does not stay where a link is replaced. -/
theorem outline_ne_of_link {set : RuleSet} {d : Disk} {p target : Path} {place : Location}
    {t : Text} {r : Revision} (ht : d.loadText p = .ok t) (hr : set.revise t = .ok r)
    (hc : r.changed = true) (hclear : d.clearance p = .ok place)
    (hlink : d.node? place = some (.link target)) :
    (runBatch set .write d [p]).2.outline ≠ d.outline := by
  have hstep : (runBatch set .write d [p]).2 = (reviseFile set .write d p).2 := rfl
  rw [hstep, reviseFile_of_changed_write ht hr hc, hclear]
  intro hsame
  have hnode := congrArg (Disk.node? · place) hsame
  simp only [Disk.node?_outline, hlink] at hnode
  rw [Disk.node?_put_self d (Disk.clearance_eq_ok_iff.mp hclear).root] at hnode
  cases hnode

/-- A project with a link to a generator source whose real path is too
long. -/
def deepProject : Disk :=
  (Disk.deep legacySource).put (Disk.fresh.workDir ++ [Settings.fileName])
    (.file Node.fileMode (Utf8.encode (settingsFor ['l'])))

/-- A run does not always leave the outline as it is. -/
theorem run_not_framed :
    ¬ ∀ (args : List Text) (d : Disk), d.IsTree → (run args d).disk.outline = d.outline := by
  intro h
  have hsame := h ["generators".toList] deepProject (by decide +kernel)
  have hpaths : (Settings.load deepProject Path.selfName none).toOption.map (·.generatorPaths)
      = some ["./l".toList] := by decide +kernel
  obtain ⟨set, hset, -⟩ := Stock.exists_generatorRules
  rcases run_cases ["generators".toList] deepProject with
    ⟨-, hnone⟩ | ⟨set', paths, hedits, -, hdisk⟩
  · exact hnone _ _ ((edits_generators_iff hpaths).mpr ⟨hset, rfl⟩)
  · obtain ⟨hset, rfl⟩ := (edits_generators_iff hpaths).mp hedits
    obtain ⟨r, hr, hc⟩ := exists_revise_legacySource hset
    have hloc : deepProject.locate "./l".toList = .ok (Disk.cellar 20 ++ [['f']]) := by
      decide +kernel
    have hother : Disk.cellar 20 ++ [['f']] ≠ Disk.fresh.workDir ++ [Settings.fileName] := by
      decide +kernel
    have hres := Disk.resolve_eq_ok_iff.mpr ⟨hloc, (Disk.node?_put_ne _ hother _).trans
      (Disk.resolve_eq_ok_iff.mp (Disk.resolve_deep legacySource)).2⟩
    have hclear : deepProject.clearance "./l".toList
        = .ok (Disk.fresh.workDir ++ [['l']]) := by decide +kernel
    have hlink : deepProject.node? (Disk.fresh.workDir ++ [['l']])
        = some (.link "k/k/k/k/k/f".toList) := by decide +kernel
    exact outline_ne_of_link (loadText_of_file hres) hr hc hclear hlink (hdisk ▸ hsame)

end Program

end Upkeep
