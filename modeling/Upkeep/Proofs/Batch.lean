import Mathlib.Data.List.Forall2
import Upkeep.Proofs.Replacement
import Upkeep.Proofs.Step

/-!
# Batches in closed form

A batch threads the disk through all its paths, and each step may change
a file that a later path leads to as well. As long as the real paths of
the files can be told, the loop goes away. Each step is the revision of the
node at one location, so a batch is that of the nodes at all locations that
its paths update (`runBatch_snd`), and it does not matter how many paths
lead to a node. On a node that has been revised a step reports the same as
before, with "unchanged" in place of "updated" (`outcomeOn_reviseAt`).

It follows that a second batch finds nothing to do
(`runBatch_idempotent`). Its temporary files have other names, which show
in the text of some errors and nowhere else (`runFrom_withTag`).
-/

namespace Upkeep

/-! ## Whole batches -/

/-- The outcomes that a batch notes, without the counts. -/
def outcomes (set : RuleSet) (mode : WriteMode) : Disk → List Path → List FileReport
  | _, [] => []
  | d, p :: paths =>
      let done := reviseFile set mode d p
      ⟨p, .ofResult done.1⟩ :: outcomes set mode done.2 paths

namespace Report

def recordAll (r : Report) (files : List FileReport) : Report :=
  files.foldl (fun r f => r.record f.path f.outcome) r

theorem files_record (r : Report) (p : Path) (outcome : Outcome) :
    (r.record p outcome).files = r.files ++ [⟨p, outcome⟩] := rfl

theorem files_recordAll (r : Report) (files : List FileReport) :
    (r.recordAll files).files = r.files ++ files := by
  induction files generalizing r with
  | nil => exact (List.append_nil _).symm
  | cons f files ih =>
      rw [recordAll, List.foldl_cons]
      exact (ih _).trans (by simp [files_record])

end Report

/-- A batch notes an outcome for each of its paths, in order. -/
theorem runFrom_eq_recordAll (set : RuleSet) (mode : WriteMode) (report : Report) (d : Disk)
    (paths : List Path) :
    (runFrom set mode report d paths).1 = report.recordAll (outcomes set mode d paths) := by
  induction paths generalizing report d with
  | nil => rfl
  | cons p paths ih =>
      rw [runFrom, ih, outcomes]
      rfl

theorem runFrom_files (set : RuleSet) (mode : WriteMode) (report : Report) (d : Disk)
    (paths : List Path) :
    (runFrom set mode report d paths).1.files = report.files ++ outcomes set mode d paths := by
  rw [runFrom_eq_recordAll, Report.files_recordAll]

theorem runBatch_files (set : RuleSet) (mode : WriteMode) (d : Disk) (paths : List Path) :
    (runBatch set mode d paths).1.files = outcomes set mode d paths :=
  runFrom_files set mode (.empty mode) d paths

theorem Report.count_record (r : Report) (p : Path) (outcome : Outcome) (kind : OutcomeKind) :
    (r.record p outcome).count kind = r.count kind + if outcome.kind = kind then 1 else 0 := by
  cases outcome <;> cases kind <;> rfl

/-- A batch counts the outcomes that it notes. -/
theorem runFrom_count (set : RuleSet) (mode : WriteMode) (report : Report) (d : Disk)
    (paths : List Path) (kind : OutcomeKind) :
    (runFrom set mode report d paths).1.count kind
      = report.count kind + ((outcomes set mode d paths).map (·.outcome.kind)).count kind := by
  induction paths generalizing report d with
  | nil => rfl
  | cons p paths ih =>
      rw [runFrom, ih, outcomes, Report.count_record, List.map_cons, List.count_cons]
      simp only [beq_iff_eq]
      omega

theorem runBatch_count (set : RuleSet) (mode : WriteMode) (d : Disk) (paths : List Path)
    (kind : OutcomeKind) :
    (runBatch set mode d paths).1.count kind
      = ((outcomes set mode d paths).map (·.outcome.kind)).count kind := by
  have hempty : (Report.empty mode).count kind = 0 := by cases kind <;> rfl
  rw [runBatch, runFrom_count, hempty, Nat.zero_add]

theorem map_path_outcomes (set : RuleSet) (mode : WriteMode) (d : Disk) (paths : List Path) :
    (outcomes set mode d paths).map (·.path) = paths := by
  induction paths generalizing d with
  | nil => rfl
  | cons p paths ih => rw [outcomes, List.map_cons, ih]

/-- A dry run leaves the disk alone, and so does each of its steps. -/
theorem reviseFile_snd_dryRun (set : RuleSet) (d : Disk) (p : Path) :
    (reviseFile set .dryRun d p).2 = d := by
  rcases reviseFile_cases set d p with ⟨-, -, hstep⟩ | ⟨_, _, _, _, _, -, -, -, -, -, hdry, -⟩
  · rw [hstep]
  · rw [hdry]

theorem runFrom_snd_dryRun (set : RuleSet) (report : Report) (d : Disk) (paths : List Path) :
    (runFrom set .dryRun report d paths).2 = d := by
  induction paths generalizing report with
  | nil => rfl
  | cons p paths ih => rw [runFrom, reviseFile_snd_dryRun, ih]

theorem runBatch_snd_dryRun (set : RuleSet) (d : Disk) (paths : List Path) :
    (runBatch set .dryRun d paths).2 = d :=
  runFrom_snd_dryRun set (.empty .dryRun) d paths

section RealPaths

variable {d : Disk} {p : Path} {paths : List Path}

theorem Disk.HasRealPaths.head (h : d.HasRealPaths (p :: paths)) :
    d.isFile p = true → d.hasRealPath p = true :=
  h p List.mem_cons_self

/-- A step leaves the real paths of the other files as they are. -/
theorem Disk.HasRealPaths.tail (h : d.HasRealPaths (p :: paths)) (set : RuleSet) :
    (d.after set .write p).HasRealPaths paths :=
  fun q hq => (h.reviseAt set _) q (List.mem_cons_of_mem p hq)

/-- **What a batch does** is to revise the nodes its paths update, each
once. -/
theorem runFrom_snd (set : RuleSet) (report : Report) (h : d.HasRealPaths paths) :
    (runFrom set .write report d paths).2
      = d.reviseAt set fun loc => paths.any (d.updates · loc) := by
  induction paths generalizing report d with
  | nil => exact (Disk.reviseAt_eq_self fun _ _ h => by cases h).symm
  | cons p paths ih =>
      rw [runFrom, reviseFile_snd set .write h.head, ih _ (h.tail set), Disk.after,
        Disk.reviseAt_reviseAt]
      simp only [Disk.updates_reviseAt, List.any_cons]

theorem runBatch_snd (set : RuleSet) (h : d.HasRealPaths paths) :
    (runBatch set .write d paths).2 = d.reviseAt set fun loc => paths.any (d.updates · loc) :=
  runFrom_snd set (.empty .write) h

end RealPaths

/-! ## A second batch -/

/-- What a second run says where the first one said this. -/
def Outcome.again : Outcome → Outcome
  | updated => unchanged
  | outcome => outcome

theorem Outcome.again_ofRead (p : Path) (cause : ReadFault) :
    (ofResult (.error (.ofRead p cause))).again = ofResult (.error (.ofRead p cause)) := by
  rcases cause with fault | fault
  · cases fault <;> rfl
  · rfl

/-- **On a revised node** the verdict is that on the node itself, with
"unchanged" in place of "updated". -/
theorem ofResult_verdict_revised (set : RuleSet) (p : Path) (found : Except DiskFault Node) :
    Outcome.ofResult (verdict set p (found.map (Node.revised set)))
      = (Outcome.ofResult (verdict set p found)).again := by
  cases found with
  | error fault => exact (Outcome.again_ofRead p _).symm
  | ok node =>
      cases node with
      | dir mode => exact (Outcome.again_ofRead p _).symm
      | link target => exact (Outcome.again_ofRead p _).symm
      | file mode bytes =>
          cases hdec : Utf8.decode bytes with
          | error fault =>
              simp only [Except.map, Node.revised, verdict, hdec]
              exact (Outcome.again_ofRead p _).symm
          | ok t =>
              cases hr : set.revise t with
              | error cause =>
                  simp only [Except.map, Node.revised, verdict, hdec, hr]
                  rfl
              | ok r =>
                  cases hc : r.changed with
                  | false =>
                      simp [Except.map, Node.revised, verdict, hdec, hr, hc, Outcome.ofResult,
                        Outcome.again]
                  | true =>
                      have hagain := RuleSet.revise_text_of_changed hr hc
                      rw [Except.map, Node.revised_file hdec hr hc]
                      simp [verdict, Utf8.decode_encode, hagain, hdec, hr, hc, Outcome.ofResult,
                        Outcome.again]

def outcomeOn (set : RuleSet) (mode : WriteMode) (d : Disk) (p : Path) : Outcome :=
  .ofResult (reviseFile set mode d p).1

theorem Outcome.again_eq_self_iff {o : Outcome} : o.again = o ↔ o ≠ .updated := by
  cases o <;> simp [again]

/-- Where something stands in the way, nothing is updated. -/
theorem outcomeOn_ne_updated {set : RuleSet} {d : Disk} {p : Path}
    (h : (d.clearance p).isOk = false) : outcomeOn set .write d p ≠ .updated := by
  rw [outcomeOn, reviseFile_fst, Disk.result]
  cases hclear : d.clearance p with
  | ok place =>
      rw [hclear] at h
      cases h
  | error cause =>
      cases verdict set p (d.found p) with
      | error failure => cases failure <;> simp [granted, Outcome.ofResult]
      | ok status => cases status <;> simp [granted, Outcome.ofResult]

/-- **A step on a disk where its file is revised**, unless something stands
in the way, has nothing to update. -/
theorem outcomeOn_reviseAt {set : RuleSet} {chosen : Location → Bool} {d : Disk} {p : Path}
    (h : ∀ loc mode bytes, d.resolve p = .ok (loc, .file mode bytes) →
      chosen loc = (d.clearance p).isOk) :
    outcomeOn set .write (d.reviseAt set chosen) p = (outcomeOn set .write d p).again := by
  have hsame : (d.clearance p).isOk = false →
      (outcomeOn set .write d p).again = outcomeOn set .write d p :=
    fun hblocked => Outcome.again_eq_self_iff.mpr (outcomeOn_ne_updated hblocked)
  have hfound := Disk.found_reviseAt set h
  revert hsame hfound
  simp only [outcomeOn, reviseFile_fst, Disk.result, Disk.clearance_reviseAt]
  cases d.clearance p with
  | error cause =>
      intro hsame hfound
      rw [hfound]
      exact (hsame rfl).symm
  | ok place =>
      intro hsame hfound
      rw [hfound]
      exact ofResult_verdict_revised set p (d.found p)

theorem outcomes_cons (set : RuleSet) (mode : WriteMode) (d : Disk) (p : Path)
    (paths : List Path) :
    outcomes set mode d (p :: paths)
      = ⟨p, outcomeOn set mode d p⟩ :: outcomes set mode (reviseFile set mode d p).2 paths := rfl

/-- **A batch on a disk where its files are revised** finds nothing to
update. Other nodes may be revised as well. -/
theorem outcomes_reviseAt {set : RuleSet} {chosen : Location → Bool} {d : Disk}
    {paths : List Path} (hreal : d.HasRealPaths paths)
    (h : ∀ p ∈ paths, d.isFile p = true → ∀ loc, d.locate p = .ok loc →
      chosen loc = (d.clearance p).isOk) :
    outcomes set .write (d.reviseAt set chosen) paths
      = (outcomes set .write d paths).map fun f => ⟨f.path, f.outcome.again⟩ := by
  induction paths generalizing d with
  | nil => rfl
  | cons p paths ih =>
      -- the step of either batch commutes with what the disks differ in
      have hcomm : (d.reviseAt set chosen).after set .write p
          = (d.after set .write p).reviseAt set chosen := by
        rw [Disk.after, Disk.after, Disk.updates_reviseAt, Disk.reviseAt_reviseAt,
          Disk.reviseAt_reviseAt]
        simp only [Bool.or_comm]
      have hfirst : ∀ loc mode bytes, d.resolve p = .ok (loc, .file mode bytes) →
          chosen loc = (d.clearance p).isOk := fun loc mode bytes hres =>
        h p List.mem_cons_self (Disk.isFile_iff.mpr ⟨loc, mode, bytes, hres⟩) loc
          (Disk.resolve_eq_ok_iff.mp hres).1
      have hrest : ∀ q ∈ paths, (d.after set .write p).isFile q = true →
          ∀ loc, (d.after set .write p).locate q = .ok loc →
            chosen loc = ((d.after set .write p).clearance q).isOk := by
        intro q hq hfile loc hloc
        rw [Disk.after, Disk.isFile_reviseAt] at hfile
        rw [Disk.after, Disk.locate_reviseAt] at hloc
        rw [Disk.after, Disk.clearance_reviseAt]
        exact h q (List.mem_cons_of_mem p hq) hfile loc hloc
      rw [outcomes_cons, outcomes_cons, List.map_cons, outcomeOn_reviseAt hfirst,
        reviseFile_snd set .write hreal.head,
        reviseFile_snd set .write (hreal.reviseAt set chosen).head, hcomm,
        ih (hreal.tail set) hrest]

/-! ## Other temporary files -/

/-- The outcomes are the same, up to the letters of a temporary file that
an error names. -/
inductive Outcome.Alike (tag tag' : DraftTag) : Outcome → Outcome → Prop
  | same (outcome : Outcome) : Alike tag tag' outcome outcome
  | draft (front : Text) :
      Alike tag tag' (error (front ++ tag.letters ++ ['"'])) (error (front ++ tag'.letters ++ ['"']))

theorem Outcome.Alike.kind_eq {tag tag' : DraftTag} {o o' : Outcome} (h : Alike tag tag' o o') :
    o'.kind = o.kind := by
  cases h <;> rfl

theorem ofResult_temporary (p : Path) (fault : DiskFault) (draft : Path) :
    Outcome.ofResult (.error (.write p (.temporary fault draft)))
      = .error ("failed to write ".toList ++ p ++ ": ".toList
        ++ (fault.message.toList ++ " at path ".toList ++ draft.quoted)) := rfl

theorem append_quoted (tag : DraftTag) (front middle stem : Text) :
    front ++ (middle ++ Path.quoted (stem ++ tag.letters))
      = front ++ (middle ++ '"' :: stem.flatMap Path.quotedChar) ++ tag.letters ++ ['"'] := by
  rw [Path.quoted, List.flatMap_append, tag.quotedChar_letters]
  simp only [List.append_assoc, List.cons_append]

theorem alike_temporary (tag tag' : DraftTag) (p : Path) (fault : DiskFault) (stem : Path) :
    Outcome.Alike tag tag' (.ofResult (.error (.write p (.temporary fault (stem ++ tag.letters)))))
      (.ofResult (.error (.write p (.temporary fault (stem ++ tag'.letters))))) := by
  rw [ofResult_temporary, ofResult_temporary, append_quoted, append_quoted]
  exact .draft _

namespace Disk

theorem resolve_withTag (d : Disk) (tag : DraftTag) (p : Path) :
    (d.withTag tag).resolve p = d.resolve p := by
  have houtline : (d.withTag tag).outline = d.outline := rfl
  have hlocate := locate_eq_of_outline houtline p
  rw [resolve, resolve, hlocate]
  rfl

theorem loadText_withTag (d : Disk) (tag : DraftTag) (p : Path) :
    (d.withTag tag).loadText p = d.loadText p := by
  rw [loadText, loadText, readText, readText, readBytes, readBytes, resolve_withTag]

end Disk

/-- A step with other letters does the same, and says the same of it. -/
theorem reviseFile_withTag (set : RuleSet) (mode : WriteMode) (d : Disk) (tag : DraftTag)
    (p : Path) :
    (reviseFile set mode (d.withTag tag) p).2 = (reviseFile set mode d p).2.withTag tag
      ∧ Outcome.Alike d.draftTag tag (outcomeOn set mode d p)
        (outcomeOn set mode (d.withTag tag) p) := by
  have hload := d.loadText_withTag tag p
  unfold outcomeOn
  cases ht : d.loadText p with
  | error failure =>
      rw [ht] at hload
      rw [reviseFile_of_unread ht, reviseFile_of_unread hload]
      exact ⟨rfl, .same _⟩
  | ok t =>
      rw [ht] at hload
      cases hr : set.revise t with
      | error cause =>
          rw [reviseFile_of_refused ht hr, reviseFile_of_refused hload hr]
          exact ⟨rfl, .same _⟩
      | ok r =>
          cases hc : r.changed with
          | false =>
              rw [reviseFile_of_unchanged ht hr hc, reviseFile_of_unchanged hload hr hc]
              exact ⟨rfl, .same _⟩
          | true =>
              cases mode with
              | dryRun =>
                  rw [reviseFile_of_changed_dryRun ht hr hc, reviseFile_of_changed_dryRun hload hr hc]
                  exact ⟨rfl, .same _⟩
              | write =>
                  rw [reviseFile_of_changed_write ht hr hc, reviseFile_of_changed_write hload hr hc,
                    d.newMode_withTag]
                  rcases d.clearance_withTag tag p with hsame | ⟨fault, stem, hclear, hclear'⟩
                  · rw [hsame]
                    cases d.clearance p with
                    | error cause => exact ⟨rfl, .same _⟩
                    | ok place => exact ⟨rfl, .same _⟩
                  · rw [hclear, hclear']
                    exact ⟨rfl, alike_temporary _ _ p fault stem⟩

/-- **A batch with other letters** does the same. -/
theorem runFrom_withTag (set : RuleSet) (mode : WriteMode) (report report' : Report) (d : Disk)
    (tag : DraftTag) (paths : List Path) :
    (runFrom set mode report' (d.withTag tag) paths).2
      = (runFrom set mode report d paths).2.withTag tag := by
  induction paths generalizing report report' d with
  | nil => rfl
  | cons p paths ih => rw [runFrom, runFrom, (reviseFile_withTag set mode d tag p).1, ih]

theorem draftTag_reviseFile (set : RuleSet) (mode : WriteMode) (d : Disk) (p : Path) :
    (reviseFile set mode d p).2.draftTag = d.draftTag := by
  rcases reviseFile_cases set d p with ⟨-, -, hstep⟩ | ⟨_, _, _, _, _, -, -, -, -, -, hdry, hwrite⟩
  · rw [hstep]
  · cases mode with
    | dryRun => rw [hdry]
    | write =>
        rw [hwrite]
        cases d.clearance p <;> rfl

theorem outcomes_withTag (set : RuleSet) (mode : WriteMode) (d : Disk) (tag : DraftTag)
    (paths : List Path) :
    List.Forall₂ (fun f g => g.path = f.path ∧ f.outcome.Alike d.draftTag tag g.outcome)
      (outcomes set mode d paths) (outcomes set mode (d.withTag tag) paths) := by
  induction paths generalizing d with
  | nil => exact .nil
  | cons p paths ih =>
      obtain ⟨hdisk, halike⟩ := reviseFile_withTag set mode d tag p
      rw [outcomes_cons, outcomes_cons, hdisk]
      refine .cons ⟨rfl, halike⟩ ?_
      rw [← draftTag_reviseFile set mode d p]
      exact ih _

/-- **A second batch finds nothing to do**, if the real paths of the files
can be told. It leaves the disk as it is, and reports the same paths in the
same order, with "unchanged" in place of "updated" and the same outcome
everywhere else. Only the letters of a temporary file that an error names
are others. -/
theorem runBatch_idempotent (set : RuleSet) {d : Disk} {paths : List Path}
    (hreal : d.HasRealPaths paths) (tag : DraftTag) :
    let first := runBatch set .write d paths
    let second := runBatch set .write (first.2.withTag tag) paths
    second.2 = first.2.withTag tag
      ∧ first.1.files.map (·.path) = paths
      ∧ List.Forall₂ (fun f g => g.path = f.path ∧ f.outcome.again.Alike d.draftTag tag g.outcome)
        first.1.files second.1.files := by
  intro first second
  have hfirst : first.2 = d.reviseAt set fun loc => paths.any (d.updates · loc) :=
    runBatch_snd set hreal
  refine ⟨?_, ?_, ?_⟩
  · have hagain : (runBatch set .write first.2 paths).2 = first.2 := by
      rw [hfirst, runBatch_snd set (hreal.reviseAt set _), Disk.reviseAt_reviseAt]
      simp only [Disk.updates_reviseAt, Bool.or_self]
    rw [← hagain]
    exact runFrom_withTag set .write _ _ first.2 tag paths
  · rw [runBatch_files, map_path_outcomes]
  · have hagain : outcomes set .write first.2 paths
        = first.1.files.map fun f => ⟨f.path, f.outcome.again⟩ := by
      rw [hfirst, runBatch_files]
      refine outcomes_reviseAt hreal fun p hp hfile loc hloc => ?_
      obtain ⟨loc', mode, bytes, hres⟩ := Disk.isFile_iff.mp hfile
      obtain rfl : loc' = loc :=
        Except.ok.inj ((Disk.resolve_eq_ok_iff.mp hres).1.symm.trans hloc)
      exact hreal.any_updates hp hres
    have halike := outcomes_withTag set .write first.2 tag paths
    have htag : first.2.draftTag = d.draftTag := by
      rw [hfirst]
      rfl
    rw [hagain, htag, List.forall₂_map_left_iff] at halike
    rw [show second.1.files = _ from runBatch_files set .write _ paths]
    exact halike

/-- A directory with a text that `RuleSet.shortening` changes, and a link
to it. -/
def linked : Disk where
  nodes := Disk.fresh.nodes ++
    [(["srv".toList, "work".toList, "t".toList], .dir Node.dirMode),
     (["srv".toList, "work".toList, "t".toList, "a.peb".toList],
       .file Node.fileMode (Utf8.encode "aabbcc cc".toList)),
     (["srv".toList, "work".toList, "t".toList, "b.peb".toList], .link "a.peb".toList)]
  drafts := []
  workDir := Disk.fresh.workDir
  distinct := by decide

theorem runBatch_idempotent_linked :
    let paths := ["t/b.peb".toList, "t/c.peb".toList]
    let tag : DraftTag := ⟨"bbbbbb".toList, by decide, by decide⟩
    let first := runBatch .shortening .write linked paths
    let second := runBatch .shortening .write (first.2.withTag tag) paths
    first.1.files = [⟨"t/b.peb".toList, .updated⟩, ⟨"t/c.peb".toList, .notFound⟩]
      ∧ second.2 = first.2.withTag tag
      ∧ List.Forall₂ (fun f g => g.path = f.path ∧ f.outcome.again.Alike linked.draftTag tag g.outcome)
        first.1.files second.1.files := by
  intro paths tag first second
  have hreal : linked.HasRealPaths paths := by decide +kernel
  obtain ⟨hdisk, -, hfiles⟩ := runBatch_idempotent .shortening hreal tag
  exact ⟨rfl, hdisk, hfiles⟩

/-- A way to `l` that goes in a circle first, and follows one link too
many on a disk where `l` leads far. -/
def detour : Path := ['/'].intercalate (List.replicate 35 ['s'] ++ [['l']])

/-- Without real paths a second batch may find what the first one did not.
Here `l` becomes a file, and the detour takes fewer links then. -/
theorem runBatch_not_idempotent :
    ¬ ∀ (set : RuleSet) (d : Disk) (paths : List Path), d.IsTree →
      ((runBatch set .write (runBatch set .write d paths).2 paths).1.files.map (·.outcome.kind))
        = (runBatch set .write d paths).1.files.map (·.outcome.again.kind) := by
  intro h
  have hkinds := h .shortening (.deep "aabbcc cc".toList) [detour, ['l']] (Disk.isTree_deep _)
  have hfirst : (runBatch .shortening .write (.deep "aabbcc cc".toList) [detour, ['l']]).1.files.map
      (·.outcome.again.kind) = [.error, .unchanged] := by decide +kernel
  have hsecond : (runBatch .shortening .write
      (runBatch .shortening .write (.deep "aabbcc cc".toList) [detour, ['l']]).2
      [detour, ['l']]).1.files.map (·.outcome.kind) = [.unchanged, .unchanged] := by decide +kernel
  rw [hfirst, hsecond] at hkinds
  cases hkinds

end Upkeep
