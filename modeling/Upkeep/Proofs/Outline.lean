import Upkeep.Disk.File

/-!
# The outline of a disk

Everything on a disk but the bytes of its files: the locations, the kinds
of the nodes, the modes, the targets of the links, the temporary files,
the working directory and what is refused. `Disk.outline` empties all
files and forgets the letters drawn for temporary files, so that two disks
agree on all of this exactly if their outlines are equal.

Where a path leads is settled by the outline alone (`locate_outline`), and
so is where a file is replaced (`site_outline`). So nothing that keeps the
outline can change what another path leads to, and that is the whole of
what later proofs need to know about walking.
-/

namespace Upkeep

namespace Node

/-- The node with the bytes of a file taken out. -/
def outline : Node → Node
  | file mode _ => file mode []
  | dir mode => dir mode
  | link target => link target

end Node

namespace Disk

theorem distinct_map {nodes : List (Location × Node)} (f : Location × Node → Node)
    (h : (nodes.map (·.1)).Nodup) : ((nodes.map fun e => (e.1, f e)).map (·.1)).Nodup := by
  rw [List.map_map]
  exact h

/-- The disk with all files emptied and the letters forgotten. -/
def outline (d : Disk) : Disk :=
  { d with
    nodes := d.nodes.map fun e => (e.1, e.2.outline)
    distinct := distinct_map (fun e => e.2.outline) d.distinct
    draftTag := default }

theorem eq_of_fields {d d' : Disk} (hn : d.nodes = d'.nodes) (hd : d.drafts = d'.drafts)
    (hw : d.workDir = d'.workDir) (hr : d.refusals = d'.refusals)
    (ht : d.draftTag = d'.draftTag) : d = d' := by
  obtain ⟨nodes, drafts, workDir, distinct, refusals, draftTag⟩ := d
  obtain ⟨nodes', drafts', workDir', distinct', refusals', draftTag'⟩ := d'
  obtain rfl : nodes = nodes' := hn
  obtain rfl : drafts = drafts' := hd
  obtain rfl : workDir = workDir' := hw
  obtain rfl : refusals = refusals' := hr
  obtain rfl : draftTag = draftTag' := ht
  rfl

/-! ## Entries of the table -/

theorem lookup_map (nodes : List (Location × Node)) (f : Location → Node → Node)
    (loc : Location) :
    (nodes.map fun e => (e.1, f e.1 e.2)).lookup loc = (nodes.lookup loc).map (f loc) := by
  induction nodes with
  | nil => rfl
  | cons e nodes ih =>
      rw [List.map_cons, List.lookup_cons, List.lookup_cons]
      split
      · rename_i heq
        obtain rfl : loc = e.1 := by simpa using heq
        rfl
      · exact ih

theorem lookup_of_mem {nodes : List (Location × Node)} (h : (nodes.map (·.1)).Nodup)
    {e : Location × Node} (he : e ∈ nodes) : nodes.lookup e.1 = some e.2 := by
  induction nodes with
  | nil => cases he
  | cons a nodes ih =>
      rw [List.map_cons, List.nodup_cons] at h
      rcases List.mem_cons.mp he with rfl | he
      · rw [List.lookup_cons, beq_self_eq_true]
      · have hne : e.1 ≠ a.1 := fun heq => h.1 (heq ▸ List.mem_map_of_mem he)
        rw [List.lookup_cons, beq_false_of_ne hne]
        exact ih h.2 he

/-- The node at a location other than the root is the one in the table. -/
theorem node?_of_mem {d : Disk} {e : Location × Node} (he : e ∈ d.nodes) (hne : e.1 ≠ []) :
    d.node? e.1 = some e.2 := by
  rw [node?, if_neg hne]
  exact lookup_of_mem d.distinct he

theorem node?_outline (d : Disk) (loc : Location) :
    d.outline.node? loc = (d.node? loc).map Node.outline := by
  rw [node?, node?]
  split
  · rfl
  · exact lookup_map d.nodes (fun _ => Node.outline) loc

/-- Only directories are at the root. -/
theorem ne_root_of_file {d : Disk} {loc : Location} {mode : Nat} {bytes : List UInt8}
    (h : d.node? loc = some (.file mode bytes)) : loc ≠ [] := by
  rintro rfl
  simp [node?] at h

/-! ## Walking -/

theorem walkWith_outline (d : Disk)
    (follow : Location → Path → List Name → Except DiskFault Location) (here : Location)
    (names : List Name) :
    d.outline.walkWith follow here names = d.walkWith follow here names := by
  induction names generalizing here with
  | nil => rfl
  | cons n rest ih =>
      rw [walkWith, walkWith, ih, ih, ih, node?_outline]
      cases d.node? (here ++ [n]) with
      | none => rfl
      | some node => cases node <;> rfl

theorem walk_outline (d : Disk) (links : Nat) (here : Location) (names : List Name) :
    d.outline.walk links here names = d.walk links here names := by
  induction links generalizing here names with
  | zero =>
      rw [walk, walk]
      exact walkWith_outline d _ here names
  | succ links ih =>
      have hfollow : (fun here target rest =>
          d.outline.walk links (origin here target) (Path.steps target ++ rest))
            = fun here target rest => d.walk links (origin here target) (Path.steps target ++ rest) :=
        funext fun _ => funext fun _ => funext fun _ => ih _ _
      rw [walk, walk, hfollow]
      exact walkWith_outline d _ here names

/-- **The outline settles where a path leads.** -/
theorem locate_outline (d : Disk) (p : Path) : d.outline.locate p = d.locate p := by
  have hwalk : d.outline.walk maxLinks (origin d.outline.workDir p) p.steps
      = d.walk maxLinks (origin d.workDir p) p.steps := walk_outline d _ _ _
  rw [locate, locate, hwalk]

theorem locate_eq_of_outline {d d' : Disk} (h : d'.outline = d.outline) (p : Path) :
    d'.locate p = d.locate p := by
  rw [← locate_outline d', h, locate_outline]

theorem resolve_eq_ok_iff {d : Disk} {p : Path} {loc : Location} {node : Node} :
    d.resolve p = .ok (loc, node) ↔ d.locate p = .ok loc ∧ d.node? loc = some node := by
  rw [resolve]
  cases d.locate p with
  | error fault => simp [bind, Except.bind]
  | ok found =>
      simp only [bind, Except.bind, Except.ok.injEq]
      constructor
      · intro h
        split at h
        · rename_i n hn
          obtain ⟨rfl, rfl⟩ := Prod.mk.inj (Except.ok.inj h)
          exact ⟨rfl, hn⟩
        · cases h
      · rintro ⟨rfl, hn⟩
        rw [hn]

/-! ## Where a path is found and replaced -/

theorem mode?_outline (node : Node) : node.outline.mode? = node.mode? := by
  cases node <;> rfl

theorem resolve_outline (d : Disk) (p : Path) :
    d.outline.resolve p = (d.resolve p).map fun found => (found.1, found.2.outline) := by
  rw [resolve, resolve, locate_outline]
  cases d.locate p with
  | error fault => rfl
  | ok loc =>
      simp only [bind, Except.bind, node?_outline]
      cases d.node? loc <;> rfl

theorem folderAt_outline (d : Disk) (p : Path) : d.outline.folderAt p = d.folderAt p := by
  rw [folderAt, folderAt, resolve_outline]
  cases d.resolve p with
  | error fault => rfl
  | ok found =>
      obtain ⟨loc, node⟩ := found
      cases node <;> rfl

theorem modeAt?_outline (d : Disk) (p : Path) : d.outline.modeAt? p = d.modeAt? p := by
  rw [modeAt?, modeAt?, find?, find?, resolve_outline]
  cases d.resolve p with
  | error fault => rfl
  | ok found => exact mode?_outline found.2

theorem isFile_iff {d : Disk} {p : Path} :
    d.isFile p = true ↔ ∃ loc mode bytes, d.resolve p = .ok (loc, .file mode bytes) := by
  rw [isFile, find?]
  cases d.resolve p with
  | error fault => simp
  | ok found =>
      obtain ⟨loc, node⟩ := found
      cases node <;> simp [Node.isFile]

theorem isFile_outline (d : Disk) (p : Path) : d.outline.isFile p = d.isFile p := by
  rw [isFile, isFile, find?, find?, resolve_outline]
  cases d.resolve p with
  | error fault => rfl
  | ok found =>
      obtain ⟨loc, node⟩ := found
      cases node <;> rfl

theorem entry_outline (d : Disk) (p : Path) : d.outline.entry p = d.entry p := by
  have hwalk : ∀ names, d.outline.walk maxLinks (origin d.outline.workDir p) names
      = d.walk maxLinks (origin d.workDir p) names := fun names => walk_outline d _ _ names
  simp only [entry, hwalk]

theorem lookupsWith_outline (d : Disk) (follow : Location → Path → List Name → List Location)
    (here : Location) (names : List Name) :
    d.outline.lookupsWith follow here names = d.lookupsWith follow here names := by
  induction names generalizing here with
  | nil => rfl
  | cons n rest ih =>
      rw [lookupsWith, lookupsWith, ih, ih, ih, node?_outline]
      cases d.node? (here ++ [n]) with
      | none => rfl
      | some node => cases node <;> rfl

theorem lookups_outline (d : Disk) (links : Nat) (here : Location) (names : List Name) :
    d.outline.lookups links here names = d.lookups links here names := by
  induction links generalizing here names with
  | zero =>
      rw [lookups, lookups]
      exact lookupsWith_outline d _ here names
  | succ links ih =>
      have hfollow : (fun here target rest =>
          d.outline.lookups links (origin here target) (Path.steps target ++ rest))
            = fun here target rest =>
              d.lookups links (origin here target) (Path.steps target ++ rest) :=
        funext fun _ => funext fun _ => funext fun _ => ih _ _
      rw [lookups, lookups, hfollow]
      exact lookupsWith_outline d _ here names

theorem hasRealPath_outline (d : Disk) (p : Path) :
    d.outline.hasRealPath p = d.hasRealPath p := by
  have hlookups : d.outline.lookups maxLinks (origin d.outline.workDir p) p.steps
      = d.lookups maxLinks (origin d.workDir p) p.steps := lookups_outline d _ _ _
  rw [hasRealPath, hasRealPath, hlookups]

theorem realPath?_outline (d : Disk) (p : Path) : d.outline.realPath? p = d.realPath? p := by
  rw [realPath?, realPath?, resolve_outline, hasRealPath_outline]
  cases d.resolve p <;> rfl

/-- **The outline settles where a file is replaced.** -/
theorem site_outline (d : Disk) (p : Path) : d.outline.site p = d.site p := by
  rw [site, site, realPath?_outline, folderAt_outline, entry_outline]
  rfl

theorem realPath?_eq_some {d : Disk} {p : Path} {loc : Location} :
    d.realPath? p = some loc
      ↔ d.hasRealPath p = true ∧ ∃ node, d.resolve p = .ok (loc, node) := by
  rw [realPath?]
  cases d.resolve p with
  | error fault => simp
  | ok found =>
      obtain ⟨l, node⟩ := found
      cases d.hasRealPath p <;> simp

end Disk

end Upkeep
