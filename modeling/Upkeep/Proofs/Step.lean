import Upkeep.Batch
import Upkeep.Proofs.Clearance
import Upkeep.Proofs.Revision

/-!
# One step of a batch

A step reads a file, revises its text and replaces the file. What it
reports depends on the node that its path leads to, and on what stands in
the way of replacing it (`reviseFile_fst`).

What it does is simple as long as the real path of the file can be told
(`Disk.HasRealPaths`). It only puts other bytes into the file its path
leads to, so it is the revision of the node at one location
(`reviseFile_snd`). Where other paths lead does not depend on bytes, and a
node that is revised twice is revised once (`Node.revised_revised`).

Without a real path that fails. A link is replaced by a file then, and what
other paths lead to changes. All that can be said of a step in general is
said by `reviseFile_cases`.
-/

namespace Upkeep

/-! ## Revised nodes -/

namespace Node

/-- The node after its text is revised. What is no text, and what the
rules refuse, stays as it is. -/
def revised (set : RuleSet) : Node → Node
  | file mode bytes =>
      match Utf8.decode bytes with
      | .error _ => file mode bytes
      | .ok t =>
          match set.revise t with
          | .error _ => file mode bytes
          | .ok r => if r.changed then file mode (Utf8.encode r.text) else file mode bytes
  | node => node

/-- A node that differs when it is revised is a file with a text that
the rules change. -/
theorem revised_cases (set : RuleSet) (node : Node) :
    node.revised set = node
      ∨ ∃ mode bytes t r, node = file mode bytes ∧ Utf8.decode bytes = .ok t
        ∧ set.revise t = .ok r ∧ r.changed = true
        ∧ node.revised set = file mode (Utf8.encode r.text) := by
  cases node with
  | dir mode => exact .inl rfl
  | link target => exact .inl rfl
  | file mode bytes =>
      rw [revised]
      cases ht : Utf8.decode bytes with
      | error fault => exact .inl rfl
      | ok t =>
          cases hr : set.revise t with
          | error cause => exact .inl (by simp only [hr])
          | ok r =>
              cases hc : r.changed with
              | false => exact .inl (by simp [hr, hc])
              | true => exact .inr ⟨mode, bytes, t, r, rfl, ht, hr, hc, by simp [hr, hc]⟩

theorem revised_file {set : RuleSet} {mode : Nat} {bytes : List UInt8} {t : Text} {r : Revision}
    (ht : Utf8.decode bytes = .ok t) (hr : set.revise t = .ok r) (hc : r.changed = true) :
    (file mode bytes).revised set = file mode (Utf8.encode r.text) := by
  simp [revised, ht, hr, hc]

theorem outline_revised (set : RuleSet) (node : Node) :
    (node.revised set).outline = node.outline := by
  rcases revised_cases set node with h | ⟨mode, bytes, t, r, rfl, -, -, -, h⟩
  · rw [h]
  · rw [h]
    rfl

/-- Revising a node is idempotent, since revising its text is. -/
theorem revised_revised (set : RuleSet) (node : Node) :
    (node.revised set).revised set = node.revised set := by
  rcases revised_cases set node with h | ⟨mode, bytes, t, r, -, -, hr, hc, h⟩
  · rw [h, h]
  · have hagain := RuleSet.revise_text_of_changed hr hc
    rw [h]
    simp [revised, Utf8.decode_encode, hagain]

end Node

namespace Disk

/-- Revise the nodes at the chosen locations. -/
def reviseAt (set : RuleSet) (chosen : Location → Bool) (d : Disk) : Disk :=
  { d with
    nodes := d.nodes.map fun e => (e.1, if chosen e.1 then e.2.revised set else e.2)
    distinct := distinct_map (fun e => if chosen e.1 then e.2.revised set else e.2) d.distinct }

theorem outline_reviseAt (set : RuleSet) (chosen : Location → Bool) (d : Disk) :
    (d.reviseAt set chosen).outline = d.outline := by
  refine eq_of_fields ?_ rfl rfl rfl rfl
  simp only [outline, reviseAt, List.map_map]
  refine List.map_congr_left fun e _ => ?_
  simp only [Function.comp_apply]
  split
  · rw [Node.outline_revised]
  · rfl

theorem node?_reviseAt (set : RuleSet) (chosen : Location → Bool) (d : Disk) (loc : Location) :
    (d.reviseAt set chosen).node? loc
      = (d.node? loc).map fun node => if chosen loc then node.revised set else node := by
  rw [node?, node?]
  split
  · -- the root is a directory, and stays one
    simp [Node.revised]
  · exact lookup_map d.nodes (fun l node => if chosen l then node.revised set else node) loc

theorem reviseAt_eq_self {set : RuleSet} {chosen : Location → Bool} {d : Disk}
    (h : ∀ e ∈ d.nodes, chosen e.1 = true → e.2.revised set = e.2) :
    d.reviseAt set chosen = d := by
  refine eq_of_fields ?_ rfl rfl rfl rfl
  have hid : ∀ e ∈ d.nodes, (e.1, if chosen e.1 then e.2.revised set else e.2) = e := by
    intro e he
    split
    · rw [h e he ‹_›]
    · rfl
  exact (List.map_congr_left hid).trans (List.map_id d.nodes)

theorem reviseAt_reviseAt (set : RuleSet) (c c' : Location → Bool) (d : Disk) :
    (d.reviseAt set c).reviseAt set c' = d.reviseAt set fun l => c l || c' l := by
  refine eq_of_fields ?_ rfl rfl rfl rfl
  simp only [reviseAt, List.map_map]
  refine List.map_congr_left fun e _ => ?_
  simp only [Function.comp_apply]
  by_cases hc : c e.1 = true
  · by_cases hc' : c' e.1 = true
    · simp [hc, hc', Node.revised_revised]
    · simp [hc, hc']
  · simp [hc]

/-- New bytes for one file revise the node at its location. -/
theorem put_revised {set : RuleSet} {d : Disk} {loc : Location} {node : Node}
    (hnode : d.node? loc = some node) (hroot : loc ≠ []) :
    d.put loc (node.revised set) = d.reviseAt set (· == loc) := by
  refine eq_of_fields ?_ rfl rfl rfl rfl
  rw [node?, if_neg hroot] at hnode
  have hdistinct := d.distinct
  simp only [put, reviseAt]
  revert hnode hdistinct
  induction d.nodes with
  | nil =>
      intro hnode
      cases hnode
  | cons e nodes ih =>
      intro hnode hdistinct
      rw [List.map_cons, List.nodup_cons] at hdistinct
      by_cases he : e.1 = loc
      · -- the other entries have other locations
        have hrest : ∀ e' ∈ nodes, (e'.1, if e'.1 == loc then e'.2.revised set else e'.2) = e' := by
          intro e' he'
          have hne : e'.1 ≠ loc := fun heq => hdistinct.1 (he ▸ heq ▸ List.mem_map_of_mem he')
          rw [if_neg (by simpa using hne)]
        rw [List.lookup_cons, he, beq_self_eq_true] at hnode
        obtain rfl : e.2 = node := Option.some.inj hnode
        rw [NodeTable.put, if_pos he, List.map_cons, List.map_congr_left hrest, he]
        simp
      · rw [List.lookup_cons, beq_false_of_ne (Ne.symm he)] at hnode
        rw [NodeTable.put, if_neg he, List.map_cons, ih hnode hdistinct.2,
          if_neg (by simpa using he)]

/-! ## Where a path leads -/

/-- The path leads to this location, and not to the root. -/
def leadsTo (d : Disk) (p : Path) (loc : Location) : Bool :=
  match d.locate p with
  | .ok l => l == loc && loc != []
  | .error _ => false

theorem leadsTo_iff {d : Disk} {p : Path} {loc : Location} :
    d.leadsTo p loc = true ↔ d.locate p = .ok loc ∧ loc ≠ [] := by
  rw [leadsTo]
  cases d.locate p with
  | error fault => simp
  | ok l => simp

theorem locate_reviseAt (set : RuleSet) (chosen : Location → Bool) (d : Disk) (p : Path) :
    (d.reviseAt set chosen).locate p = d.locate p :=
  locate_eq_of_outline (outline_reviseAt set chosen d) p

theorem leadsTo_reviseAt (set : RuleSet) (chosen : Location → Bool) (d : Disk) (p : Path) :
    (d.reviseAt set chosen).leadsTo p = d.leadsTo p := by
  funext loc
  rw [leadsTo, leadsTo, locate_reviseAt]

/-- The path leads to this location, and what is there can be replaced. -/
def updates (d : Disk) (p : Path) (loc : Location) : Bool :=
  d.leadsTo p loc && (d.clearance p).isOk

theorem clearance_reviseAt (set : RuleSet) (chosen : Location → Bool) (d : Disk) (p : Path) :
    (d.reviseAt set chosen).clearance p = d.clearance p :=
  clearance_of_outline (outline_reviseAt set chosen d) rfl p

theorem updates_reviseAt (set : RuleSet) (chosen : Location → Bool) (d : Disk) (p : Path) :
    (d.reviseAt set chosen).updates p = d.updates p := by
  funext loc
  rw [updates, updates, leadsTo_reviseAt, clearance_reviseAt]

/-- The real paths of all files among these can be told. -/
def HasRealPaths (d : Disk) (paths : List Path) : Prop :=
  ∀ p ∈ paths, d.isFile p = true → d.hasRealPath p = true

instance (d : Disk) (paths : List Path) : Decidable (d.HasRealPaths paths) :=
  inferInstanceAs (Decidable (∀ p ∈ paths, d.isFile p = true → d.hasRealPath p = true))

theorem isFile_reviseAt (set : RuleSet) (chosen : Location → Bool) (d : Disk) (p : Path) :
    (d.reviseAt set chosen).isFile p = d.isFile p := by
  rw [← isFile_outline, outline_reviseAt, isFile_outline]

theorem HasRealPaths.reviseAt {d : Disk} {paths : List Path} (h : d.HasRealPaths paths)
    (set : RuleSet) (chosen : Location → Bool) : (d.reviseAt set chosen).HasRealPaths paths := by
  intro p hp hfile
  rw [isFile_reviseAt] at hfile
  rw [← hasRealPath_outline, outline_reviseAt, hasRealPath_outline]
  exact h p hp hfile

theorem HasRealPaths.perm {d : Disk} {paths paths' : List Path} (h : d.HasRealPaths paths)
    (hperm : paths.Perm paths') : d.HasRealPaths paths' :=
  fun p hp => h p (hperm.mem_iff.mpr hp)

theorem HasRealPaths.realPath? {d : Disk} {paths : List Path} (h : d.HasRealPaths paths)
    {p : Path} (hp : p ∈ paths) {loc : Location} {mode : Nat} {bytes : List UInt8}
    (hres : d.resolve p = .ok (loc, .file mode bytes)) : d.realPath? p = some loc :=
  realPath?_eq_some.mpr ⟨h p hp (isFile_iff.mpr ⟨loc, mode, bytes, hres⟩), _, hres⟩

/-- A file is updated through every path to it or through none. -/
theorem HasRealPaths.any_updates {d : Disk} {paths : List Path} (h : d.HasRealPaths paths)
    {p : Path} (hp : p ∈ paths) {loc : Location} {mode : Nat} {bytes : List UInt8}
    (hres : d.resolve p = .ok (loc, .file mode bytes)) :
    paths.any (d.updates · loc) = (d.clearance p).isOk := by
  obtain ⟨hloc, hnode⟩ := resolve_eq_ok_iff.mp hres
  rw [Bool.eq_iff_iff, List.any_eq_true]
  constructor
  · rintro ⟨q, hq, hupdates⟩
    obtain ⟨hlead, hclear⟩ := (Bool.and_eq_true _ _).mp hupdates
    have hres' := resolve_eq_ok_iff.mpr ⟨(leadsTo_iff.mp hlead).1, hnode⟩
    rwa [clearance_of_realPath (h.realPath? hp hres) (h.realPath? hq hres')]
  · intro hclear
    have hlead := leadsTo_iff.mpr ⟨hloc, ne_root_of_file hnode⟩
    exact ⟨p, hp, (Bool.and_eq_true _ _).mpr ⟨hlead, hclear⟩⟩

end Disk

/-! ## One step -/

/-- What is reported for a path, given the node it leads to. -/
def verdict (set : RuleSet) (p : Path) : Except DiskFault Node → Except Failure FileStatus
  | .error fault => .error (.ofRead p (.disk fault))
  | .ok (.dir _) => .error (.ofRead p (.disk .isDirectory))
  | .ok (.link _) => .error (.ofRead p (.disk .linkLoop))
  | .ok (.file _ bytes) =>
      match Utf8.decode bytes with
      | .error fault => .error (.ofRead p (.encoding fault))
      | .ok t =>
          match set.revise t with
          | .error cause => .error (.unsettled cause)
          | .ok r => .ok (if r.changed then .updated r.totalHits else .unchanged)

def Disk.found (d : Disk) (p : Path) : Except DiskFault Node := (d.resolve p).map (·.2)

/-- Only the file that a path leads to matters. -/
theorem Disk.found_reviseAt (set : RuleSet) {chosen : Location → Bool} {d : Disk} {p : Path}
    {b : Bool}
    (h : ∀ loc mode bytes, d.resolve p = .ok (loc, .file mode bytes) → chosen loc = b) :
    (d.reviseAt set chosen).found p = if b then (d.found p).map (Node.revised set) else d.found p := by
  rw [found, found, resolve, resolve, locate_reviseAt]
  cases hloc : d.locate p with
  | error fault => cases b <;> rfl
  | ok loc =>
      simp only [bind, Except.bind, node?_reviseAt]
      cases hnode : d.node? loc with
      | none => cases b <;> rfl
      | some node =>
          cases node with
          | dir mode => cases b <;> simp [Except.map, Node.revised]
          | link target => cases b <;> simp [Except.map, Node.revised]
          | file mode bytes =>
              have hchosen := h loc mode bytes (resolve_eq_ok_iff.mpr ⟨hloc, hnode⟩)
              cases b <;> simp [Except.map, hchosen]

theorem loadText_cases (d : Disk) (p : Path) :
    (∃ cause, d.readText p = .error cause ∧ d.loadText p = .error (.ofRead p cause))
      ∨ ∃ t, d.readText p = .ok t ∧ d.loadText p = .ok t := by
  unfold Disk.loadText
  cases d.readText p with
  | error cause => exact .inl ⟨cause, rfl, rfl⟩
  | ok t => exact .inr ⟨t, rfl, rfl⟩

/-- A text is read only from a file that holds one. -/
theorem loadText_eq_ok {d : Disk} {p : Path} {t : Text} (h : d.loadText p = .ok t) :
    ∃ loc mode bytes, d.resolve p = .ok (loc, .file mode bytes) ∧ Utf8.decode bytes = .ok t := by
  rcases loadText_cases d p with ⟨cause, -, herror⟩ | ⟨t', hread, hok⟩
  · rw [herror] at h
    cases h
  · obtain rfl : t' = t := Except.ok.inj (hok.symm.trans h)
    unfold Disk.readText Disk.readBytes at hread
    cases hres : d.resolve p with
    | error fault => simp [hres, bind, Except.bind] at hread
    | ok found =>
        obtain ⟨loc, node⟩ := found
        cases node with
        | dir mode => simp [hres, bind, Except.bind] at hread
        | link target => simp [hres, bind, Except.bind] at hread
        | file mode bytes =>
            simp only [hres, bind, Except.bind] at hread
            cases hdec : Utf8.decode bytes with
            | error fault => simp [hdec] at hread
            | ok u =>
                simp only [hdec, Except.ok.injEq] at hread
                exact ⟨loc, mode, bytes, rfl, hread ▸ hdec⟩

theorem loadText_of_file {d : Disk} {p : Path} {loc : Location} {mode : Nat} {t : Text}
    (h : d.resolve p = .ok (loc, .file mode (Utf8.encode t))) : d.loadText p = .ok t := by
  rw [Disk.loadText, Disk.readText_of_file h]
  rfl

/-- A path that cannot be read is reported as such, and the node it leads
to has no text to revise. -/
theorem verdict_of_loadText {set : RuleSet} {d : Disk} {p : Path} {failure : Failure}
    (h : d.loadText p = .error failure) :
    verdict set p (d.found p) = .error failure
      ∧ ∀ loc node, d.resolve p = .ok (loc, node) → node.revised set = node := by
  rcases loadText_cases d p with ⟨cause, hread, herror⟩ | ⟨t, -, hok⟩
  · obtain rfl : .ofRead p cause = failure := Except.error.inj (herror.symm.trans h)
    unfold Disk.readText Disk.readBytes at hread
    cases hres : d.resolve p with
    | error fault =>
        simp only [hres, bind, Except.bind, Except.error.injEq] at hread
        simp [Disk.found, hres, Except.map, verdict, hread]
    | ok found =>
        obtain ⟨loc, node⟩ := found
        cases node with
        | dir mode =>
            simp only [hres, bind, Except.bind, Except.error.injEq] at hread
            simp [Disk.found, hres, Except.map, verdict, hread, Node.revised]
        | link target =>
            simp only [hres, bind, Except.bind, Except.error.injEq] at hread
            simp [Disk.found, hres, Except.map, verdict, hread, Node.revised]
        | file mode bytes =>
            simp only [hres, bind, Except.bind] at hread
            cases hdec : Utf8.decode bytes with
            | error fault =>
                simp only [hdec, Except.error.injEq] at hread
                simp [Disk.found, hres, Except.map, verdict, hread, hdec, Node.revised]
            | ok t => simp [hdec] at hread
  · rw [hok] at h
    cases h

theorem reviseFile_of_unread {set : RuleSet} {mode : WriteMode} {d : Disk} {p : Path}
    {failure : Failure} (h : d.loadText p = .error failure) :
    reviseFile set mode d p = (.error failure, d) := by
  simp only [reviseFile, h]

theorem reviseFile_of_refused {set : RuleSet} {mode : WriteMode} {d : Disk} {p : Path} {t : Text}
    {cause : Unsettled} (ht : d.loadText p = .ok t) (hr : set.revise t = .error cause) :
    reviseFile set mode d p = (.error (.unsettled cause), d) := by
  simp only [reviseFile, ht, hr]

theorem reviseFile_of_unchanged {set : RuleSet} {mode : WriteMode} {d : Disk} {p : Path}
    {t : Text} {r : Revision} (ht : d.loadText p = .ok t) (hr : set.revise t = .ok r)
    (hc : r.changed = false) : reviseFile set mode d p = (.ok .unchanged, d) := by
  simp [reviseFile, ht, hr, hc]

theorem reviseFile_of_changed_dryRun {set : RuleSet} {d : Disk} {p : Path} {t : Text}
    {r : Revision} (ht : d.loadText p = .ok t) (hr : set.revise t = .ok r)
    (hc : r.changed = true) :
    reviseFile set .dryRun d p = (.ok (.updated r.totalHits), d) := by
  simp [reviseFile, ht, hr, hc]

theorem reviseFile_of_changed_write {set : RuleSet} {d : Disk} {p : Path} {t : Text}
    {r : Revision} (ht : d.loadText p = .ok t) (hr : set.revise t = .ok r)
    (hc : r.changed = true) :
    reviseFile set .write d p =
      match d.clearance p with
      | .error cause => (.error (.write p cause), d)
      | .ok loc =>
          (.ok (.updated r.totalHits), d.put loc (.file (d.newMode p) (Utf8.encode r.text))) := by
  simp only [reviseFile, ht, hr, hc, if_true, Disk.replaceText, Disk.replaceBytes_eq]
  cases d.clearance p <;> rfl

/-- **The ways in which a step can go.** Up to a change of the text both
modes do the same. -/
theorem reviseFile_cases (set : RuleSet) (d : Disk) (p : Path) :
    ((∀ loc node, d.resolve p = .ok (loc, node) → node.revised set = node)
        ∧ (∀ hits, verdict set p (d.found p) ≠ .ok (.updated hits))
        ∧ ∀ mode, reviseFile set mode d p = (verdict set p (d.found p), d))
      ∨ ∃ loc mode bytes t r, d.resolve p = .ok (loc, .file mode bytes)
        ∧ Utf8.decode bytes = .ok t ∧ set.revise t = .ok r ∧ r.changed = true
        ∧ verdict set p (d.found p) = .ok (.updated r.totalHits)
        ∧ reviseFile set .dryRun d p = (.ok (.updated r.totalHits), d)
        ∧ reviseFile set .write d p =
          match d.clearance p with
          | .error cause => (.error (.write p cause), d)
          | .ok place =>
              (.ok (.updated r.totalHits), d.put place (.file mode (Utf8.encode r.text))) := by
  cases hload : d.loadText p with
  | error failure =>
      obtain ⟨hverdict, hsame⟩ := @verdict_of_loadText set d p failure hload
      refine .inl ⟨hsame, ?_, fun mode => ?_⟩
      · rw [hverdict]
        exact fun hits h => by cases h
      · rw [hverdict, reviseFile_of_unread hload]
  | ok t =>
      obtain ⟨loc, bits, bytes, hres, hdec⟩ := loadText_eq_ok hload
      have hfound : d.found p = .ok (.file bits bytes) := by
        rw [Disk.found, hres]
        rfl
      have still : (Node.file bits bytes).revised set = .file bits bytes →
          ∀ l node, d.resolve p = .ok (l, node) → node.revised set = node := by
        intro hsame l node h
        rw [hres] at h
        obtain ⟨-, rfl⟩ := Prod.mk.inj (Except.ok.inj h)
        exact hsame
      cases hr : set.revise t with
      | error cause =>
          have hverdict : verdict set p (d.found p) = .error (.unsettled cause) := by
            simp only [hfound, verdict, hdec, hr]
          refine .inl ⟨still (by simp [Node.revised, hdec, hr]), ?_, fun mode => ?_⟩
          · rw [hverdict]
            exact fun hits h => by cases h
          · rw [hverdict, reviseFile_of_refused hload hr]
      | ok r =>
          cases hc : r.changed with
          | false =>
              have hverdict : verdict set p (d.found p) = .ok .unchanged := by
                simp [hfound, verdict, hdec, hr, hc]
              refine .inl ⟨still (by simp [Node.revised, hdec, hr, hc]), ?_, fun mode => ?_⟩
              · rw [hverdict]
                exact fun hits h => by cases h
              · rw [hverdict, reviseFile_of_unchanged hload hr hc]
          | true =>
              refine .inr ⟨loc, bits, bytes, t, r, hres, hdec, hr, hc, ?_,
                reviseFile_of_changed_dryRun hload hr hc, ?_⟩
              · simp [hfound, verdict, hdec, hr, hc]
              · rw [reviseFile_of_changed_write hload hr hc, Disk.newMode_of_file hres]

/-- What is reported of a verdict where an update may be prevented. -/
def granted (p : Path) :
    Except WriteFault Location → Except Failure FileStatus → Except Failure FileStatus
  | .error cause, .ok (.updated _) => .error (.write p cause)
  | _, report => report

theorem granted_of_ne_updated {report : Except Failure FileStatus}
    (h : ∀ hits, report ≠ .ok (.updated hits)) (p : Path) (clearance : Except WriteFault Location) :
    granted p clearance report = report := by
  cases clearance with
  | ok place => rfl
  | error cause =>
      cases report with
      | error failure => rfl
      | ok status =>
          cases status with
          | updated hits => exact absurd rfl (h hits)
          | unchanged => rfl

/-- What is reported for a path on this disk. -/
def Disk.result (set : RuleSet) (d : Disk) (p : Path) : WriteMode → Except Failure FileStatus
  | .dryRun => verdict set p (d.found p)
  | .write => granted p (d.clearance p) (verdict set p (d.found p))

/-- **What a step reports** depends on the node that its path leads to, and
on what stands in the way. -/
theorem reviseFile_fst (set : RuleSet) (mode : WriteMode) (d : Disk) (p : Path) :
    (reviseFile set mode d p).1 = d.result set p mode := by
  rcases reviseFile_cases set d p with
    ⟨-, hsame, hstep⟩ | ⟨loc, bits, bytes, t, r, -, -, -, -, hverdict, hdry, hwrite⟩
  · rw [hstep]
    cases mode with
    | dryRun => rfl
    | write => exact (granted_of_ne_updated hsame p _).symm
  · cases mode with
    | dryRun => rw [hdry, Disk.result, hverdict]
    | write =>
        rw [hwrite, Disk.result, hverdict]
        cases d.clearance p <;> rfl

/-- The disk that a step leaves behind. -/
def Disk.after (set : RuleSet) : WriteMode → Disk → Path → Disk
  | .write, d, p => d.reviseAt set (d.updates p)
  | .dryRun, d, _ => d

/-- Where the node stays as it is, so does the disk. -/
theorem Disk.after_eq_self {set : RuleSet} (mode : WriteMode) {d : Disk} {p : Path}
    (h : ∀ loc node, d.resolve p = .ok (loc, node) → node.revised set = node) :
    d.after set mode p = d := by
  cases mode with
  | dryRun => rfl
  | write =>
      refine reviseAt_eq_self fun e he hupdates => ?_
      obtain ⟨hloc, hroot⟩ := leadsTo_iff.mp ((Bool.and_eq_true _ _).mp hupdates).1
      exact h e.1 e.2 (resolve_eq_ok_iff.mpr ⟨hloc, node?_of_mem he hroot⟩)

/-- Where the path leads to a file, that is the only node that is revised. -/
theorem Disk.after_write_of_file (set : RuleSet) {d : Disk} {p : Path} {loc : Location}
    {mode : Nat} {bytes : List UInt8} (h : d.resolve p = .ok (loc, .file mode bytes)) :
    d.after set .write p
      = if (d.clearance p).isOk then d.put loc ((Node.file mode bytes).revised set) else d := by
  obtain ⟨hloc, hnode⟩ := resolve_eq_ok_iff.mp h
  have hroot := ne_root_of_file hnode
  have hchosen : d.updates p = fun l => l == loc && (d.clearance p).isOk := by
    funext l
    rw [updates]
    congr 1
    rw [Bool.eq_iff_iff, leadsTo_iff, hloc]
    simp only [Except.ok.injEq, beq_iff_eq]
    exact ⟨fun h => h.1.symm, fun h => ⟨h.symm, h ▸ hroot⟩⟩
  rw [after, hchosen]
  cases (d.clearance p).isOk with
  | false => exact reviseAt_eq_self fun _ _ h => by simp at h
  | true =>
    simp only [Bool.and_true, if_true]
    exact (put_revised hnode hroot).symm

/-- **What a step does**, if the real path of a file can be told, is to
revise the node its path leads to. -/
theorem reviseFile_snd (set : RuleSet) (mode : WriteMode) {d : Disk} {p : Path}
    (hreal : d.isFile p = true → d.hasRealPath p = true) :
    (reviseFile set mode d p).2 = d.after set mode p := by
  rcases reviseFile_cases set d p with
    ⟨hsame, -, hstep⟩ | ⟨loc, bits, bytes, t, r, hres, hdec, hr, hc, -, hdry, hwrite⟩
  · rw [hstep, Disk.after_eq_self mode hsame]
  · cases mode with
    | dryRun => rw [hdry, Disk.after]
    | write =>
        have hpath := Disk.realPath?_eq_some.mpr
          ⟨hreal (Disk.isFile_iff.mpr ⟨loc, bits, bytes, hres⟩), _, hres⟩
        rw [hwrite, Disk.after_write_of_file set hres, Node.revised_file hdec hr hc]
        cases hclear : d.clearance p with
        | error cause => rfl
        | ok place =>
            obtain rfl : loc = place := Disk.place_of_realPath hpath hclear
            rfl

end Upkeep
