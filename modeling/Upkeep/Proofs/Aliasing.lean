import Upkeep.Disk.Listing
import Upkeep.Proofs.Batch

/-!
# Several paths to one file

A path list may name a file twice, and a link may stand beside the file
it leads to. Then the paths are not independent: the first of them
updates the file, and the others find it updated. This file says exactly
how far that goes where real paths can be told.

Let `outcomeOn` be what a path is reported with on a given disk. In a
batch that writes, a path gets this outcome, unless a path before it leads
to the same file; then "unchanged" takes the place of "updated"
(`outcomeOn_reviseAt_any`). In a dry run every path gets the outcome that a
dry run of it alone has (`outcomes_dryRun`). Two things follow.

- The order of a batch does not matter (`runBatch_perm`). Two steps that
  change places either lead to different files and keep their outcomes, or
  lead to one file; then the first of them gets what the other one got
  before, and the numbers of outcomes stay (`kinds_swap`).
- A dry run foretells a batch exactly if no update is prevented and no
  file to be updated is led to twice (`runBatch_foretold`).
-/

namespace Upkeep

/-! ## Paths to the same file -/

namespace Disk

/-- Both paths lead to the same regular file. -/
def sameFile (d : Disk) (p q : Path) : Bool :=
  match d.resolve p, d.resolve q with
  | .ok (l, .file _ _), .ok (l', .file _ _) => l == l'
  | _, _ => false

theorem sameFile_iff {d : Disk} {p q : Path} :
    d.sameFile p q = true ↔
      ∃ loc mode bytes, d.resolve p = .ok (loc, .file mode bytes)
        ∧ d.resolve q = .ok (loc, .file mode bytes) := by
  rw [sameFile]
  constructor
  · intro h
    split at h
    · rename_i l mode bytes l' mode' bytes' hp hq
      obtain rfl : l = l' := by simpa using h
      -- the node is settled by the location
      have hnode := (resolve_eq_ok_iff.mp hq).2
      rw [(resolve_eq_ok_iff.mp hp).2] at hnode
      rw [← Option.some.inj hnode] at hq
      exact ⟨l, mode, bytes, hp, hq⟩
    · cases h
  · rintro ⟨loc, mode, bytes, hp, hq⟩
    simp [hp, hq]

theorem sameFile_comm (d : Disk) (p q : Path) : d.sameFile p q = d.sameFile q p := by
  rw [Bool.eq_iff_iff, sameFile_iff, sameFile_iff]
  constructor <;> exact fun ⟨loc, mode, bytes, h, h'⟩ => ⟨loc, mode, bytes, h', h⟩

theorem sameFile_withTag (d : Disk) (tag : DraftTag) (p q : Path) :
    (d.withTag tag).sameFile p q = d.sameFile p q := by
  rw [sameFile, sameFile, resolve_withTag, resolve_withTag]

theorem HasRealPaths.withTag {d : Disk} {paths : List Path} (h : d.HasRealPaths paths)
    (tag : DraftTag) : (d.withTag tag).HasRealPaths paths := by
  intro p hp hfile
  rw [← hasRealPath_outline]
  rw [← isFile_outline] at hfile
  exact (hasRealPath_outline d p).trans (h p hp ((isFile_outline d p).symm.trans hfile))

theorem reviseAt_nowhere (set : RuleSet) (d : Disk) : (d.reviseAt set fun _ => false) = d :=
  reviseAt_eq_self fun _ _ h => by cases h

end Disk

/-! ## The outcome of a path -/

/-- Where its own file is not among them, other nodes may be revised. -/
theorem outcomeOn_reviseAt_of_not {set : RuleSet} {chosen : Location → Bool} {d : Disk} {p : Path}
    (h : ∀ loc mode bytes, d.resolve p = .ok (loc, .file mode bytes) → chosen loc = false) :
    outcomeOn set .write (d.reviseAt set chosen) p = outcomeOn set .write d p := by
  have hfound : (d.reviseAt set chosen).found p = d.found p := Disk.found_reviseAt set h
  simp only [outcomeOn, reviseFile_fst, Disk.result, Disk.clearance_reviseAt, hfound]

/-- **The outcome of a path behind others.** If one of them leads to the
same file, there is nothing left to update. If none does, the outcome is
the same as on the disk before. -/
theorem outcomeOn_reviseAt_any (set : RuleSet) {d : Disk} {seen : List Path} {p : Path}
    (hreal : d.HasRealPaths (p :: seen)) :
    outcomeOn set .write (d.reviseAt set fun loc => seen.any (d.updates · loc)) p
      = if seen.any (d.sameFile p) then (outcomeOn set .write d p).again
        else outcomeOn set .write d p := by
  have hseen : d.HasRealPaths seen := fun q hq => hreal q (List.mem_cons_of_mem p hq)
  split
  · rename_i hany
    obtain ⟨q, hq, hsame⟩ := List.any_eq_true.mp hany
    obtain ⟨loc, mode, bytes, hp, hres⟩ := Disk.sameFile_iff.mp hsame
    refine outcomeOn_reviseAt fun l mode' bytes' hp' => ?_
    obtain ⟨rfl, -⟩ := Prod.mk.inj (Except.ok.inj (hp.symm.trans hp'))
    rw [hseen.any_updates hq hres]
    exact congrArg _ (Disk.clearance_of_realPath (hseen.realPath? hq hres)
      (hreal.realPath? List.mem_cons_self hp))
  · rename_i hnone
    refine outcomeOn_reviseAt_of_not fun loc mode bytes hp => ?_
    refine Bool.eq_false_iff.mpr fun hany => hnone ?_
    obtain ⟨q, hq, hupdates⟩ := List.any_eq_true.mp hany
    have hlead := ((Bool.and_eq_true _ _).mp hupdates).1
    have hres := Disk.resolve_eq_ok_iff.mpr
      ⟨(Disk.leadsTo_iff.mp hlead).1, (Disk.resolve_eq_ok_iff.mp hp).2⟩
    exact List.any_eq_true.mpr ⟨q, hq, Disk.sameFile_iff.mpr ⟨loc, mode, bytes, hp, hres⟩⟩

/-- The outcome of a path right behind another one. -/
theorem outcomeOn_after (set : RuleSet) {d : Disk} {p q : Path} (hreal : d.HasRealPaths [p, q]) :
    outcomeOn set .write (d.after set .write q) p
      = if d.sameFile p q then (outcomeOn set .write d p).again else outcomeOn set .write d p := by
  simpa [Disk.after] using outcomeOn_reviseAt_any set hreal

/-- **What a step says where a dry run says this**: the same, unless an
update is prevented. -/
theorem outcomeOn_write (set : RuleSet) (d : Disk) (p : Path) :
    outcomeOn set .write d p =
      match d.clearance p with
      | .error cause =>
          if outcomeOn set .dryRun d p = .updated then .error (Failure.write p cause).message
          else outcomeOn set .dryRun d p
      | .ok _ => outcomeOn set .dryRun d p := by
  simp only [outcomeOn, reviseFile_fst, Disk.result]
  cases d.clearance p with
  | ok place => rfl
  | error cause =>
      cases verdict set p (d.found p) with
      | error failure => cases failure <;> rfl
      | ok status => cases status <;> rfl

theorem Outcome.kind_eq_updated_iff {o : Outcome} : o.kind = .updated ↔ o = .updated := by
  cases o <;> simp [kind]

theorem Outcome.kind_again (o : Outcome) :
    o.again.kind = if o.kind = .updated then .unchanged else o.kind := by
  cases o <;> rfl

/-- Paths to one file are reported alike, up to the text of an error. -/
theorem kind_outcomeOn_of_sameFile {set : RuleSet} {d : Disk} {p q : Path}
    (hreal : d.HasRealPaths [p, q]) (h : d.sameFile p q = true) :
    (outcomeOn set .write d p).kind = (outcomeOn set .write d q).kind := by
  obtain ⟨loc, mode, bytes, hp, hq⟩ := Disk.sameFile_iff.mp h
  have hclear : d.clearance p = d.clearance q :=
    Disk.clearance_of_realPath (hreal.realPath? (by simp) hp) (hreal.realPath? (by simp) hq)
  have hdry : (outcomeOn set .dryRun d p).kind = (outcomeOn set .dryRun d q).kind := by
    simp only [outcomeOn, reviseFile_fst, Disk.result, Disk.found, hp, hq, Except.map, verdict]
    cases Utf8.decode bytes with
    | error fault => rfl
    | ok t =>
        cases set.revise t with
        | error cause => rfl
        | ok r => rfl
  rw [outcomeOn_write, outcomeOn_write, hclear]
  cases d.clearance q with
  | ok place => exact hdry
  | error cause =>
      simp only [← Outcome.kind_eq_updated_iff, hdry]
      split
      · rfl
      · exact hdry

/-! ## The reports of both modes -/

/-- A dry run looks at every path on the disk as it is. -/
theorem outcomes_dryRun (set : RuleSet) (d : Disk) (paths : List Path) :
    outcomes set .dryRun d paths = paths.map fun p => ⟨p, outcomeOn set .dryRun d p⟩ := by
  induction paths with
  | nil => rfl
  | cons p paths ih => rw [outcomes_cons, List.map_cons, reviseFile_snd_dryRun, ih]

/-- Where some paths have been processed, one more is processed. -/
theorem after_reviseAt_any (set : RuleSet) (d : Disk) (seen : List Path) (p : Path) :
    (d.reviseAt set fun loc => seen.any (d.updates · loc)).after set .write p
      = d.reviseAt set fun loc => (p :: seen).any (d.updates · loc) := by
  rw [Disk.after, Disk.updates_reviseAt, Disk.reviseAt_reviseAt]
  simp only [List.any_cons, Bool.or_comm]

section RealPaths

variable {set : RuleSet} {d : Disk}

theorem outcomes_append {front back : List Path} (hreal : d.HasRealPaths (front ++ back)) :
    outcomes set .write d (front ++ back)
      = outcomes set .write d front
        ++ outcomes set .write (d.reviseAt set fun loc => front.any (d.updates · loc)) back := by
  induction front generalizing d with
  | nil =>
      simp only [List.nil_append, List.any_nil, Disk.reviseAt_nowhere]
      rfl
  | cons p front ih =>
      rw [List.cons_append] at hreal ⊢
      rw [outcomes_cons, reviseFile_snd set .write hreal.head, ih (hreal.tail set), outcomes_cons,
        reviseFile_snd set .write hreal.head, List.cons_append, Disk.after, Disk.reviseAt_reviseAt]
      simp only [Disk.updates_reviseAt, List.any_cons]

theorem length_outcomes (set : RuleSet) (mode : WriteMode) (d : Disk) (paths : List Path) :
    (outcomes set mode d paths).length = paths.length := by
  have h := congrArg List.length (map_path_outcomes set mode d paths)
  rwa [List.length_map] at h

/-- **What a batch that writes says of a path** depends on the paths before
it only in whether one of them leads to the same file. -/
theorem outcomes_getElem?_append {front : List Path} {p : Path} {back : List Path}
    (hreal : d.HasRealPaths (front ++ p :: back)) :
    (outcomes set .write d (front ++ p :: back))[front.length]?
      = some ⟨p, if front.any (d.sameFile p) then (outcomeOn set .write d p).again
          else outcomeOn set .write d p⟩ := by
  have hlen := length_outcomes set .write d front
  have hseen : d.HasRealPaths (p :: front) := by
    intro q hq
    refine hreal q ?_
    rcases List.mem_cons.mp hq with rfl | hq
    · simp
    · exact List.mem_append_left _ hq
  rw [outcomes_append hreal, List.getElem?_append_right (Nat.le_of_eq hlen), hlen, Nat.sub_self,
    outcomes_cons, outcomeOn_reviseAt_any set hseen]
  rfl

/-- Behind the paths `seen`, a batch that writes reports the outcomes `g`
exactly if each step would on the original disk, and no file to be updated
is led to again. The induction moves one path at a time to `seen`. -/
theorem outcomes_eq_map_iff {g : Path → Outcome} (seen : List Path) {paths : List Path}
    (hreal : d.HasRealPaths (seen ++ paths))
    (hg : ∀ p, outcomeOn set .write d p = g p
      ∨ outcomeOn set .write d p ≠ .updated ∧ g p = .updated) :
    outcomes set .write (d.reviseAt set fun loc => seen.any (d.updates · loc)) paths
        = paths.map (fun p => ⟨p, g p⟩)
      ↔ (∀ p ∈ paths, outcomeOn set .write d p = g p
          ∧ ∀ q ∈ seen, d.sameFile q p = true → g p ≠ .updated)
        ∧ paths.Pairwise fun q p => d.sameFile q p = true → g p ≠ .updated := by
  induction paths generalizing seen with
  | nil => simp [outcomes]
  | cons p paths ih =>
      have hmoved : d.HasRealPaths (p :: seen ++ paths) := hreal.perm List.perm_middle
      have hseen : d.HasRealPaths (p :: seen) := fun q hq => hmoved q (List.mem_append_left _ hq)
      have hp : d.isFile p = true → d.hasRealPath p = true := hseen.head
      have hhead : outcomeOn set .write (d.reviseAt set fun loc => seen.any (d.updates · loc)) p
            = g p
          ↔ outcomeOn set .write d p = g p
            ∧ ∀ q ∈ seen, d.sameFile q p = true → g p ≠ .updated := by
        rw [outcomeOn_reviseAt_any set hseen]
        split
        · rename_i hany
          obtain ⟨q, hq, hsame⟩ := List.any_eq_true.mp hany
          rw [d.sameFile_comm p q] at hsame
          rcases hg p with heq | ⟨hne, hupdated⟩
          · rw [heq, Outcome.again_eq_self_iff]
            exact ⟨fun h => ⟨rfl, fun _ _ _ => h⟩, fun h => h.2 q hq hsame⟩
          · rw [Outcome.again_eq_self_iff.mpr hne]
            exact ⟨fun h => absurd (h.trans hupdated) hne, fun h => h.1⟩
        · rename_i hnone
          refine ⟨fun h => ⟨h, fun q hq hsame => absurd ?_ hnone⟩, fun h => h.1⟩
          exact List.any_eq_true.mpr ⟨q, hq, d.sameFile_comm p q ▸ hsame⟩
      have hstep : (d.reviseAt set fun loc => seen.any (d.updates · loc)).isFile p = true →
          (d.reviseAt set fun loc => seen.any (d.updates · loc)).hasRealPath p = true :=
        (hseen.reviseAt set _).head
      rw [outcomes_cons, reviseFile_snd set .write hstep, after_reviseAt_any, List.map_cons,
        List.cons.injEq, ih (p :: seen) hmoved, List.pairwise_cons, FileReport.mk.injEq, hhead]
      simp only [List.mem_cons, forall_eq_or_imp, true_and]
      constructor
      · rintro ⟨hp, hrest, hpairs⟩
        exact ⟨⟨hp, fun q hq => ⟨(hrest q hq).1, (hrest q hq).2.2⟩⟩,
          fun q hq => (hrest q hq).2.1, hpairs⟩
      · rintro ⟨⟨hp, hseen⟩, hfirst, hpairs⟩
        exact ⟨hp, fun q hq => ⟨(hseen q hq).1, hfirst q hq, (hseen q hq).2⟩, hpairs⟩

/-- The outcomes of the disk as it is are reported exactly if no file to be
updated is led to twice. -/
theorem outcomes_write_eq_iff {g : Path → Outcome} {paths : List Path}
    (hreal : d.HasRealPaths paths)
    (hg : ∀ p, outcomeOn set .write d p = g p
      ∨ outcomeOn set .write d p ≠ .updated ∧ g p = .updated) :
    outcomes set .write d paths = paths.map (fun p => ⟨p, g p⟩)
      ↔ (∀ p ∈ paths, outcomeOn set .write d p = g p)
        ∧ paths.Pairwise fun q p => d.sameFile q p = true → g p ≠ .updated := by
  have h := outcomes_eq_map_iff [] hreal hg
  simp only [List.any_nil, Disk.reviseAt_nowhere] at h
  rw [h]
  simp

end RealPaths

/-! ## The order of a batch -/

theorem after_comm (set : RuleSet) (d : Disk) (p q : Path) :
    (d.after set .write p).after set .write q = (d.after set .write q).after set .write p := by
  simp only [Disk.after, Disk.updates_reviseAt, Disk.reviseAt_reviseAt, Bool.or_comm]

def kinds (set : RuleSet) (d : Disk) (paths : List Path) : List OutcomeKind :=
  (outcomes set .write d paths).map (·.outcome.kind)

theorem kinds_cons {set : RuleSet} {d : Disk} {p : Path} {paths : List Path}
    (hreal : d.HasRealPaths (p :: paths)) :
    kinds set d (p :: paths)
      = (outcomeOn set .write d p).kind :: kinds set (d.after set .write p) paths := by
  rw [kinds, outcomes_cons, reviseFile_snd set .write hreal.head]
  rfl

/-- **Two steps that change places.** On different files they keep their
outcomes. On one file the earlier step has the outcome of the file, and the
later one has what is left of it, whichever paths they are. -/
theorem kinds_swap {set : RuleSet} {d : Disk} {p q : Path} {paths : List Path}
    (hreal : d.HasRealPaths (p :: q :: paths)) :
    (kinds set d (p :: q :: paths)).Perm (kinds set d (q :: p :: paths)) := by
  have hreal' : d.HasRealPaths (q :: p :: paths) := hreal.perm (.swap q p paths)
  have hpair : d.HasRealPaths [p, q] := fun r hr => hreal r (List.mem_append_left paths hr)
  rw [kinds_cons hreal, kinds_cons (hreal.tail set), kinds_cons hreal', kinds_cons (hreal'.tail set),
    after_comm set d p q, outcomeOn_after set hpair, outcomeOn_after set (hpair.perm (.swap q p [])),
    d.sameFile_comm q p]
  cases hsame : d.sameFile p q with
  | false => exact .swap _ _ _
  | true =>
      have hkind := @kind_outcomeOn_of_sameFile set d p q hpair hsame
      simp only [if_true, Outcome.kind_again, hkind]
      exact .refl _

theorem kinds_perm (set : RuleSet) {d : Disk} {paths paths' : List Path}
    (hreal : d.HasRealPaths paths) (h : paths.Perm paths') :
    (kinds set d paths).Perm (kinds set d paths') := by
  induction h generalizing d with
  | nil => exact .refl _
  | cons p hperm ih =>
      rw [kinds_cons hreal, kinds_cons (hreal.perm (hperm.cons p))]
      exact (ih (hreal.tail set)).cons _
  | swap p q paths => exact kinds_swap hreal
  | trans hone _ ih ih' => exact (ih hreal).trans (ih' (hreal.perm hone))

/-- Paths to different files get the outcomes they get on the disk as it
is. -/
theorem outcomes_write_of_distinct {set : RuleSet} {d : Disk} {paths : List Path}
    (hreal : d.HasRealPaths paths) (h : paths.Pairwise fun p q => d.sameFile p q = false) :
    outcomes set .write d paths = paths.map fun p => ⟨p, outcomeOn set .write d p⟩ := by
  refine (outcomes_write_eq_iff hreal fun _ => .inl rfl).mpr
    ⟨fun _ _ => rfl, h.imp fun hnone hsame => ?_⟩
  rw [hnone] at hsame
  cases hsame

theorem kinds_withTag (set : RuleSet) (d : Disk) (tag : DraftTag) (paths : List Path) :
    kinds set (d.withTag tag) paths = kinds set d paths := by
  unfold kinds
  have halike := outcomes_withTag set .write d tag paths
  generalize outcomes set .write d paths = files at halike ⊢
  generalize outcomes set .write (d.withTag tag) paths = files' at halike ⊢
  induction halike with
  | nil => rfl
  | cons hfirst _ ih => rw [List.map_cons, List.map_cons, ih, hfirst.2.kind_eq]

/-- **The order of a batch does not matter**, if the real paths of the files
can be told. It leaves the same disk, and the same number of outcomes of
each kind. If no two paths lead to the same file, then every path has its
own outcome in either order. Temporary files may have other names. -/
theorem runBatch_perm (set : RuleSet) {d : Disk} {paths paths' : List Path}
    (hreal : d.HasRealPaths paths) (h : paths.Perm paths') (tag : DraftTag) :
    let one := runBatch set .write d paths
    let other := runBatch set .write (d.withTag tag) paths'
    other.2 = one.2.withTag tag
      ∧ (∀ kind, other.1.count kind = one.1.count kind)
      ∧ other.1.total = one.1.total
      ∧ (paths.Pairwise (fun p q => d.sameFile p q = false) →
          ∃ outcome outcome' : Path → Outcome,
            one.1.files = paths.map (fun p => ⟨p, outcome p⟩)
              ∧ other.1.files = paths'.map (fun p => ⟨p, outcome' p⟩)
              ∧ ∀ p, (outcome p).Alike d.draftTag tag (outcome' p)) := by
  have hreal' : d.HasRealPaths paths' := hreal.perm h
  refine ⟨?_, fun kind => ?_, ?_, fun hdistinct =>
    ⟨outcomeOn set .write d, outcomeOn set .write (d.withTag tag), ?_, ?_, fun p => ?_⟩⟩
  · have hany : ∀ loc, paths'.any (d.updates · loc) = paths.any (d.updates · loc) :=
      fun loc => h.symm.any_eq
    have hsame : (runBatch set .write d paths').2 = (runBatch set .write d paths).2 := by
      rw [runBatch_snd set hreal, runBatch_snd set hreal']
      simp only [hany]
    rw [← hsame]
    exact runFrom_withTag set .write _ _ d tag paths'
  · rw [runBatch_count, runBatch_count]
    show (kinds set (d.withTag tag) paths').count kind = (kinds set d paths).count kind
    rw [kinds_withTag]
    exact (kinds_perm set hreal h).symm.count_eq kind
  · rw [Report.total, Report.total, runBatch_files, runBatch_files, length_outcomes,
      length_outcomes, h.length_eq]
  · rw [runBatch_files, outcomes_write_of_distinct hreal hdistinct]
  · have hdistinct' : paths'.Pairwise fun p q => (d.withTag tag).sameFile p q = false := by
      simp only [Disk.sameFile_withTag]
      exact h.pairwise hdistinct fun hpq => d.sameFile_comm _ _ ▸ hpq
    rw [runBatch_files, outcomes_write_of_distinct (hreal'.withTag tag) hdistinct']
  · exact (reviseFile_withTag set .write d tag p).2

theorem runBatch_perm_linked :
    (runBatch .shortening .write (linked.withTag default) ["t/b.peb".toList, "t/a.peb".toList]).2
        = (runBatch .shortening .write linked ["t/a.peb".toList, "t/b.peb".toList]).2.withTag default
      ∧ ∃ outcome outcome' : Path → Outcome,
        (runBatch .shortening .write linked ["t/b.peb".toList, "t/c.peb".toList]).1.files
            = [⟨"t/b.peb".toList, outcome "t/b.peb".toList⟩,
               ⟨"t/c.peb".toList, outcome "t/c.peb".toList⟩]
          ∧ (runBatch .shortening .write (linked.withTag default)
              ["t/c.peb".toList, "t/b.peb".toList]).1.files
            = [⟨"t/c.peb".toList, outcome' "t/c.peb".toList⟩,
               ⟨"t/b.peb".toList, outcome' "t/b.peb".toList⟩]
          ∧ ∀ p, (outcome p).Alike linked.draftTag default (outcome' p) := by
  have hdistinct : ["t/b.peb".toList, "t/c.peb".toList].Pairwise fun p q =>
      linked.sameFile p q = false := by decide +kernel
  have hreal : linked.HasRealPaths ["t/a.peb".toList, "t/b.peb".toList] := by decide +kernel
  have hreal' : linked.HasRealPaths ["t/b.peb".toList, "t/c.peb".toList] := by decide +kernel
  exact ⟨(runBatch_perm .shortening hreal (.swap _ _ []) default).1,
    (runBatch_perm .shortening hreal' (.swap _ _ []) default).2.2.2 hdistinct⟩

/-- Without real paths the order may matter. A link to `l` is updated in its
own place while `l` leads far, and finds an updated file if `l` has become
one before. -/
theorem runBatch_order_matters :
    ¬ ∀ (set : RuleSet) (d : Disk) (paths paths' : List Path), d.IsTree → paths.Perm paths' →
      (runBatch set .write d paths').1.updated = (runBatch set .write d paths).1.updated := by
  intro h
  have hcount := h .shortening (.deep "aabbcc cc".toList) [['l'], ['m']] [['m'], ['l']]
    (Disk.isTree_deep _) (.swap _ _ [])
  have hone : (runBatch .shortening .write (.deep "aabbcc cc".toList) [['l'], ['m']]).1.updated = 1 := by
    decide +kernel
  have htwo : (runBatch .shortening .write (.deep "aabbcc cc".toList) [['m'], ['l']]).1.updated = 2 := by
    decide +kernel
  rw [hone, htwo] at hcount
  cases hcount

/-! ## Dry runs -/

/-- **What a dry run foretells.** Where the real paths of the files can be
told, its report is that of the batch exactly if no update is prevented,
and no path to a file that is updated stands behind another path to this
file. In general the two differ at such paths only. Where an update is
prevented, the batch reports the fault; where a path before it leads to the
same file, the batch finds nothing left to update. -/
theorem runBatch_foretold (set : RuleSet) {d : Disk} {paths : List Path}
    (hreal : d.HasRealPaths paths) :
    let dry := (runBatch set .dryRun d paths).1
    let real := (runBatch set .write d paths).1
    (real.files = dry.files
        ↔ (∀ p ∈ paths, outcomeOn set .dryRun d p = .updated → ∃ loc, d.Clears p loc)
          ∧ paths.Pairwise fun q p => d.sameFile q p = true → outcomeOn set .dryRun d p ≠ .updated)
      ∧ (real.files = dry.files → ∀ kind, real.count kind = dry.count kind)
      ∧ ∀ front p back, paths = front ++ p :: back →
          ∃ outcome, dry.files[front.length]? = some ⟨p, outcome⟩
            ∧ real.files[front.length]? = some ⟨p,
              match d.clearance p with
              | .error cause =>
                  if outcome = .updated then .error (Failure.write p cause).message else outcome
              | .ok _ => if front.any (d.sameFile p) then outcome.again else outcome⟩ := by
  refine ⟨?_, fun hfiles kind => ?_, ?_⟩
  · have hcleared : ∀ p, outcomeOn set .write d p = outcomeOn set .dryRun d p
        ↔ (outcomeOn set .dryRun d p = .updated → ∃ loc, d.Clears p loc) := by
      intro p
      simp only [← Disk.clearance_eq_ok_iff]
      rw [outcomeOn_write]
      cases hclear : d.clearance p with
      | ok place => simp
      | error cause => by_cases hupdated : outcomeOn set .dryRun d p = .updated <;> simp [hupdated]
    have hg : ∀ p, outcomeOn set .write d p = outcomeOn set .dryRun d p
        ∨ outcomeOn set .write d p ≠ .updated ∧ outcomeOn set .dryRun d p = .updated := by
      intro p
      rw [outcomeOn_write]
      cases d.clearance p with
      | ok place => exact .inl rfl
      | error cause => by_cases hupdated : outcomeOn set .dryRun d p = .updated <;> simp [hupdated]
    rw [runBatch_files, runBatch_files, outcomes_dryRun, outcomes_write_eq_iff hreal hg]
    simp only [hcleared]
  · rw [runBatch_files, runBatch_files] at hfiles
    rw [runBatch_count, runBatch_count, hfiles]
  · rintro front p back rfl
    refine ⟨outcomeOn set .dryRun d p, ?_, ?_⟩
    · rw [runBatch_files, outcomes_dryRun]
      simp
    · rw [runBatch_files, outcomes_getElem?_append hreal, outcomeOn_write]
      cases d.clearance p with
      | ok place => rfl
      | error cause =>
          by_cases hupdated : outcomeOn set .dryRun d p = .updated
          · simp [hupdated, Outcome.again]
          · simp [hupdated, Outcome.again_eq_self_iff.mpr hupdated]

theorem runBatch_foretold_linked :
    (runBatch .shortening .write linked ["t/b.peb".toList, "t/c.peb".toList]).1.files
        = (runBatch .shortening .dryRun linked ["t/b.peb".toList, "t/c.peb".toList]).1.files
      ∧ ∃ outcome,
        (runBatch .shortening .dryRun linked ["t/a.peb".toList, "t/b.peb".toList]).1.files[1]?
            = some ⟨"t/b.peb".toList, outcome⟩
          ∧ (runBatch .shortening .write linked ["t/a.peb".toList, "t/b.peb".toList]).1.files[1]?
            = some ⟨"t/b.peb".toList, outcome.again⟩ := by
  have hreal : linked.HasRealPaths ["t/b.peb".toList, "t/c.peb".toList] := by decide +kernel
  have hreal' : linked.HasRealPaths ["t/a.peb".toList, "t/b.peb".toList] := by decide +kernel
  have hclears : linked.clearance "t/b.peb".toList
      = .ok ["srv".toList, "work".toList, "t".toList, "a.peb".toList] := rfl
  have hdistinct : ["t/b.peb".toList, "t/c.peb".toList].Pairwise fun q p =>
      linked.sameFile q p = true → outcomeOn .shortening .dryRun linked p ≠ .updated := by
    decide +kernel
  have hfree : ∀ p ∈ ["t/b.peb".toList, "t/c.peb".toList],
      outcomeOn .shortening .dryRun linked p = .updated → ∃ loc, linked.Clears p loc := by
    simp only [List.forall_mem_cons, List.not_mem_nil, false_imp_iff, implies_true, and_true]
    refine ⟨fun _ => ⟨_, Disk.clearance_eq_ok_iff.mp hclears⟩, fun hupdated => ?_⟩
    cases hupdated
  refine ⟨(runBatch_foretold .shortening hreal).1.mpr ⟨hfree, hdistinct⟩, ?_⟩
  obtain ⟨outcome, hdry, hwrite⟩ :=
    (runBatch_foretold .shortening hreal').2.2 ["t/a.peb".toList] "t/b.peb".toList [] rfl
  refine ⟨outcome, hdry, ?_⟩
  rw [hclears] at hwrite
  exact hwrite

/-- A link beside the file it leads to is listed like the file. A dry run
says that both are updated, and the batch updates one. -/
theorem dryRun_not_foretelling :
    linked.listFiles "t".toList "peb".toList = .ok ["t/a.peb".toList, "t/b.peb".toList]
      ∧ (runBatch .shortening .dryRun linked ["t/a.peb".toList, "t/b.peb".toList]).1.files
        = [⟨"t/a.peb".toList, .updated⟩, ⟨"t/b.peb".toList, .updated⟩]
      ∧ (runBatch .shortening .write linked ["t/a.peb".toList, "t/b.peb".toList]).1.files
        = [⟨"t/a.peb".toList, .updated⟩, ⟨"t/b.peb".toList, .unchanged⟩] := by
  have hdir : linked.resolve "t".toList
      = .ok (["srv".toList, "work".toList, "t".toList], .dir Node.dirMode) := rfl
  have hnames : linked.sortedNames ["srv".toList, "work".toList, "t".toList]
      = ["a.peb".toList, "b.peb".toList] := List.mergeSort_of_pairwise (by decide)
  refine ⟨?_, rfl, rfl⟩
  rw [Disk.listFiles, hdir]
  simp only [hnames]
  rfl

end Upkeep
