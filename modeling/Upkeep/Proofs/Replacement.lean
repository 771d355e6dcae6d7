import Mathlib.Data.List.Basic
import Upkeep.Proofs.Clearance
import Upkeep.Proofs.Route

/-!
# What replacing a file does to the disk

A file is replaced through a draft that is renamed onto it. Whatever
happens on the way, either the disk is the same afterwards, drafts
included, or exactly one entry differs. Where the path leads to a file
whose real path can be told, that file gets the new text and keeps its
mode. Otherwise the entry that the path names becomes a file
(`replaceText_atomic`). If the path leads to a file all the same, that
entry is the file itself or a link (`place_cases`).

The text can then be read through the same path, with one exception. On
the way to its directory a path may pass through the very link that it
names in the end. The entry is a file now, and the path is cut off
(`readText_of_passesThrough`). This takes a path that leads to a directory
or follows too many links (`resolve_of_passesThrough`).

`ring` and `deep` are disks where links do not stay what they are.
-/

namespace Upkeep

namespace Disk

/-- `d'` is `d` with one entry set, and no temporary file left behind. -/
structure ReplacedAt (d : Disk) (loc : Location) (node : Node) (d' : Disk) : Prop where
  here : d'.node? loc = some node
  elsewhere : ∀ l ≠ loc, d'.node? l = d.node? l
  drafts : d'.drafts = d.drafts
  workDir : d'.workDir = d.workDir

theorem replacedAt_put (d : Disk) {loc : Location} (hroot : loc ≠ []) (node : Node) :
    d.ReplacedAt loc node (d.put loc node) where
  here := node?_put_self d hroot node
  elsewhere _ hne := node?_put_ne d hne node
  drafts := rfl
  workDir := rfl

/-! ## Files that are there -/

theorem outline_put_table {nodes : List (Location × Node)} {loc : Location} {node node' : Node}
    (h : nodes.lookup loc = some node) (hsame : node'.outline = node.outline) :
    (NodeTable.put loc node' nodes).map (fun e => (e.1, e.2.outline))
      = nodes.map fun e => (e.1, e.2.outline) := by
  induction nodes with
  | nil => cases h
  | cons e nodes ih =>
      rw [List.lookup_cons] at h
      by_cases he : e.1 = loc
      · rw [he, beq_self_eq_true] at h
        obtain rfl := Option.some.inj h
        rw [NodeTable.put, if_pos he, List.map_cons, List.map_cons, hsame, he]
      · rw [beq_false_of_ne (Ne.symm he)] at h
        rw [NodeTable.put, if_neg he, List.map_cons, List.map_cons, ih h]

/-- Other bytes in a file leave the outline as it is. -/
theorem outline_put_file {d : Disk} {loc : Location} {mode : Nat} {bytes : List UInt8}
    (h : d.node? loc = some (.file mode bytes)) (bytes' : List UInt8) :
    (d.put loc (.file mode bytes')).outline = d.outline := by
  have hlookup : d.nodes.lookup loc = some (.file mode bytes) := by
    rw [node?, if_neg (ne_root_of_file h)] at h
    exact h
  exact eq_of_fields (outline_put_table hlookup rfl) rfl rfl rfl rfl

theorem resolve_put_file {d : Disk} {p : Path} {loc : Location} {mode : Nat}
    {bytes : List UInt8} (h : d.resolve p = .ok (loc, .file mode bytes)) (bytes' : List UInt8) :
    (d.put loc (.file mode bytes')).resolve p = .ok (loc, .file mode bytes') := by
  obtain ⟨hloc, hnode⟩ := resolve_eq_ok_iff.mp h
  refine resolve_eq_ok_iff.mpr ⟨?_, node?_put_self d (ne_root_of_file hnode) _⟩
  rw [locate_eq_of_outline (outline_put_file hnode bytes')]
  exact hloc

/-! ## Entries that a path names -/

/-- The walk along all names of a path but the last one. -/
def outset (d : Disk) (p : Path) : Stage := ⟨maxLinks, origin d.workDir p, p.names.dropLast⟩

/-- On the way to the directory of its last name, the path leads through
the entry at this location. -/
def PassesThrough (d : Disk) (p : Path) (loc : Location) : Prop :=
  ∃ s, d.Steps (d.outset p) s ∧ s.LooksUp loc

theorem resolve_of_locate_error {d : Disk} {p : Path} {fault : DiskFault}
    (h : d.locate p = .error fault) : d.resolve p = .error fault := by
  unfold resolve
  rw [h]
  rfl

theorem entry_eq_ok {d : Disk} {p : Path} {loc : Location} (h : d.entry p = .ok loc) :
    checkPath p = .ok () ∧ p.endsInSlash = false
      ∧ ∃ n folder, p.names.getLast? = some n ∧ IsPlain n ∧ loc = folder ++ [n]
        ∧ d.walk maxLinks (origin d.workDir p) (p.names.dropLast ++ [Path.selfName])
          = .ok folder := by
  unfold entry at h
  cases hnul : p.hasNul with
  | true => simp [hnul, throw, throwThe, MonadExceptOf.throw, bind, Except.bind] at h
  | false =>
      cases hcheck : checkPath p with
      | error fault => simp [hnul, hcheck, bind, Except.bind] at h
      | ok u =>
          cases hlast : p.names.getLast? with
          | none => simp [hnul, hcheck, hlast, bind, Except.bind] at h
          | some n =>
              cases hwalk : d.walk maxLinks (origin d.workDir p)
                  (p.names.dropLast ++ [Path.selfName]) with
              | error fault => simp [hnul, hcheck, hlast, hwalk, bind, Except.bind] at h
              | ok folder =>
                  simp only [hnul, hcheck, hlast, hwalk, bind, Except.bind, Bool.or_eq_true,
                    decide_eq_true_eq, Bool.false_eq_true, if_false] at h
                  split at h
                  · cases h
                  · rename_i hdots
                    rw [not_or] at hdots
                    split at h
                    · cases h
                    · rename_i hlong
                      split at h
                      · cases h
                      · rename_i hslash
                        exact ⟨rfl, by simpa using hslash, n, folder, rfl,
                          ⟨hdots.1, hdots.2, by simpa using hlong⟩, (Except.ok.inj h).symm, rfl⟩

/-- The entry that a path names lies in the directory that the other names
lead to, and the path itself leads on from there. -/
theorem exists_of_entry {d : Disk} {p : Path} {loc : Location} (h : d.entry p = .ok loc) :
    ∃ n folder left, IsPlain n ∧ loc = folder ++ [n]
      ∧ d.Steps (d.outset p) ⟨left, folder, []⟩
      ∧ ∀ d' : Disk, d'.workDir = d.workDir →
        d'.locate p = d'.walk maxLinks (d.outset p).here ((d.outset p).ahead ++ [n]) := by
  obtain ⟨hcheck, hslash, n, folder, hlast, hn, hloc, hwalk⟩ := entry_eq_ok h
  obtain ⟨left, hsteps⟩ := exists_steps_of_walk (d.outset p) hwalk
  refine ⟨n, folder, left, hn, hloc, hsteps, ?_⟩
  intro d' hwork
  have hsteps : p.steps = p.names.dropLast ++ [n] := by
    rw [Path.steps, if_neg (by simp [hslash])]
    exact (List.dropLast_append_getLast? n hlast).symm
  unfold locate
  rw [hcheck, hwork, hsteps]
  rfl

section Entry

variable {d : Disk} {p : Path} {loc : Location} (h : d.entry p = .ok loc)
include h

/-- The path leads to the entry that it names if that is a file or a
directory. -/
theorem resolve_of_entry_node {node : Node} (hnode : d.node? loc = some node)
    (hlink : ∀ target, node ≠ .link target) : d.resolve p = .ok (loc, node) := by
  obtain ⟨n, folder, left, hn, rfl, hsteps, hlocate⟩ := exists_of_entry h
  have hpath : d.locate p = d.walk left folder [n] := by
    rw [hlocate d rfl]
    exact walk_of_steps (steps_append hsteps [n])
  refine resolve_eq_ok_iff.mpr ⟨hpath.trans ?_, hnode⟩
  cases node with
  | file mode bytes => exact walk_last hn (.inr ⟨mode, bytes, hnode⟩) left
  | dir mode =>
      rw [← Nat.add_zero left, walk_of_move (.down hn hnode)]
      exact walk_nil left
  | link target => exact absurd rfl (hlink target)

/-- The path leads nowhere if nothing is where it names an entry. -/
theorem resolve_of_entry_none (hnone : d.node? loc = none) : d.resolve p = .error .notFound := by
  obtain ⟨n, folder, left, hn, rfl, hsteps, hlocate⟩ := exists_of_entry h
  have hpath : d.locate p = .ok (folder ++ [n]) := by
    rw [hlocate d rfl, ← walk_last hn (.inl hnone) left]
    exact walk_of_steps (steps_append hsteps [n])
  rw [resolve, hpath]
  simp [bind, Except.bind, hnone]

end Entry

/-- The entry that is set when a file is replaced: the file itself, unless
its real path cannot be told and the path names a link. -/
theorem place_cases {d : Disk} {p : Path} {loc place : Location} {mode : Nat}
    {bytes : List UInt8} (hres : d.resolve p = .ok (loc, .file mode bytes))
    (hclear : d.clearance p = .ok place) :
    place = loc ∨ d.hasRealPath p = false ∧ d.entry p = .ok place
      ∧ ∃ target, d.node? place = some (.link target) := by
  cases hreal : d.hasRealPath p with
  | true => exact .inl (place_of_realPath (realPath?_eq_some.mpr ⟨hreal, _, hres⟩) hclear).symm
  | false =>
      have hclears := clearance_eq_ok_iff.mp hclear
      have hnone : d.realPath? p = none := by
        rw [realPath?, hres, hreal]
        rfl
      have hentry : d.entry p = .ok place := by
        have hplace := hclears.place
        rwa [site, hnone] at hplace
      cases hnode : d.node? place with
      | none =>
          rw [resolve_of_entry_none hentry hnode] at hres
          cases hres
      | some node =>
          cases node with
          | dir mode => exact absurd hnode (hclears.free mode)
          | link target => exact .inr ⟨rfl, hentry, target, rfl⟩
          | file mode bytes =>
              have hfile := resolve_of_entry_node hentry hnode (by simp)
              rw [hres] at hfile
              exact .inl (Prod.mk.inj (Except.ok.inj hfile)).1.symm

/-! ## Reading the text again -/

/-- A file put where the path names an entry is what the path leads to, if
the path does not pass through it on the way. -/
theorem resolve_of_entry {d d' : Disk} {p : Path} {loc : Location} {mode : Nat}
    {bytes : List UInt8} (h : d.entry p = .ok loc) (hd' : d.ReplacedAt loc (.file mode bytes) d')
    (hpass : ¬ d.PassesThrough p loc) : d'.resolve p = .ok (loc, .file mode bytes) := by
  obtain ⟨n, folder, left, hn, rfl, hsteps, hlocate⟩ := exists_of_entry h
  have hsame := steps_of_agree hd'.elsewhere hsteps fun s hs hlooks => hpass ⟨s, hs, hlooks⟩
  refine resolve_eq_ok_iff.mpr ⟨?_, hd'.here⟩
  rw [hlocate d' hd'.workDir, ← walk_last hn (.inr ⟨mode, bytes, hd'.here⟩) left]
  exact walk_of_steps (steps_append hsame [n])

/-- A step that does not lead down follows a link. -/
theorem step_of_link {d : Disk} {links : Nat} {here : Location} {n : Name} {rest : List Name}
    {s : Stage} (hn : IsPlain n) (hfree : ¬ d.IsFolder (here ++ [n]))
    (h : d.Step ⟨links, here, n :: rest⟩ s) :
    ∃ target left, d.node? (here ++ [n]) = some (.link target) ∧ links = left + 1
      ∧ s = ⟨left, origin here target, target.steps ++ rest⟩ := by
  generalize hwhole : (⟨links, here, n :: rest⟩ : Stage) = r at h
  cases h with
  | move hmove =>
      cases hwhole
      cases hmove with
      | self => exact absurd rfl hn.1
      | up => exact absurd rfl hn.2.1
      | down _ hdir => exact absurd ⟨_, hdir⟩ hfree
      | follow _ hlink => exact ⟨_, _, hlink, rfl, rfl⟩

/-- A link that a walk has passed through leads to a directory by itself,
unless fewer links are left. -/
theorem IsTree.walk_of_link {d : Disk} (ht : d.IsTree) {here : Location} {n : Name} {target : Path}
    (hn : IsPlain n) (hlink : d.node? (here ++ [n]) = some (.link target))
    (hhere : d.IsFolder here) {left : Nat} {rest : List Name} {s : Stage}
    (h : d.Steps ⟨left, origin here target, target.steps ++ rest⟩ s) (hend : s.ahead = [])
    {links : Nat} (hlinks : links ≤ left + 1) :
    d.walk links here [n] = .error .linkLoop
      ∨ ∃ loc, d.walk links here [n] = .ok loc ∧ d.IsFolder loc := by
  cases links with
  | zero => exact .inl (walk_of_costly (.follow hn hlink) Nat.one_pos [])
  | succ links =>
      rw [walk_of_move (.follow hn hlink), List.append_nil]
      exact ht.walk_front h hend (isFolder_origin hhere target) rfl (Nat.le_of_succ_le_succ hlinks)

/-- **Passing through the entry it names** takes a path to a directory, or
one that follows too many links. Where the walk passes, the link there
leads to a directory; the last name is the same link, so the path leads to
that directory as well, as long as there are links left. -/
theorem resolve_of_passesThrough {d : Disk} (ht : d.IsTree) {p : Path} {loc : Location}
    (h : d.entry p = .ok loc) (hfree : ¬ d.IsFolder loc) (hpass : d.PassesThrough p loc) :
    d.resolve p = .error .linkLoop ∨ ∃ l mode, d.resolve p = .ok (l, .dir mode) := by
  obtain ⟨n, folder, left, hn, rfl, hsteps, hlocate⟩ := exists_of_entry h
  have hpath : d.locate p = d.walk left folder [n] := by
    rw [hlocate d rfl]
    exact walk_of_steps (steps_append hsteps [n])
  have hfolder : d.IsFolder folder := ht.isFolder_of_steps hsteps (isFolder_origin ht.workDir p)
  obtain ⟨⟨links, here, ahead⟩, hs, m, rest, rfl, hm, hloc⟩ := hpass
  obtain ⟨rfl, rfl⟩ : here = folder ∧ m = n := by
    have hboth := List.append_inj' hloc rfl
    exact ⟨hboth.1, List.singleton_inj.mp hboth.2⟩
  -- the walk goes on from the link, since it does not end there
  have hgoes : d.Steps ⟨links, here, m :: rest⟩ ⟨left, here, []⟩ := by
    rcases Relation.ReflTransGen.total_of_right_unique step_unique hs hsteps with hon | hback
    · exact hon
    · rcases Relation.ReflTransGen.cases_head hback with heq | ⟨s', hstep, -⟩
      · cases heq
      · cases hstep
  rcases Relation.ReflTransGen.cases_head hgoes with heq | ⟨s', hstep, hrest⟩
  · cases heq
  · obtain ⟨target, k, hlink, rfl, rfl⟩ := step_of_link hm hfree hstep
    have hfew : left ≤ k + 1 := links_le_of_steps hgoes
    rcases ht.walk_of_link hm hlink hfolder hrest rfl hfew with hloop | ⟨loc, hend, mode, hdir⟩
    · exact .inl (resolve_of_locate_error (hpath.trans hloop))
    · exact .inr ⟨loc, mode, resolve_eq_ok_iff.mpr ⟨hpath.trans hend, hdir⟩⟩

/-! ## Replacing the text of a path -/

/-- A disk stays a tree if an entry in a directory is set that is no
directory itself. -/
theorem IsTree.put {d : Disk} (ht : d.IsTree) {folder : Location} {n : Name}
    (hfolder : d.IsFolder folder) (hfree : ¬ d.IsFolder (folder ++ [n])) (node : Node) :
    (d.put (folder ++ [n]) node).IsTree := by
  have keep : ∀ {l : Location}, d.IsFolder l → (d.put (folder ++ [n]) node).IsFolder l := by
    rintro l ⟨mode, hdir⟩
    have hne : l ≠ folder ++ [n] := by
      rintro rfl
      exact hfree ⟨mode, hdir⟩
    exact ⟨mode, (node?_put_ne d hne node).trans hdir⟩
  refine ⟨?_, keep ht.workDir⟩
  intro l m hsome
  by_cases hl : l ++ [m] = folder ++ [n]
  · rw [(List.append_inj' hl rfl).1]
    exact keep hfolder
  · rw [node?_put_ne d hl] at hsome
    exact keep (ht.above l m hsome)

/-- A working directory with a link in it that leads back to it. -/
def ring : Disk := fresh.put (fresh.workDir ++ [['l']]) (.link ['.'])

/-- Forty links are followed, and this path has one more: it leads nowhere.
Yet its directory is found, and the link itself is replaced. -/
def ringPath : Path := ['/'].intercalate (List.replicate 41 ['l'])

/-- What is written is not always read back. -/
theorem replaceText_not_read_back :
    ¬ ∀ (d : Disk) (p : Path) (t : Text), d.IsTree → (d.replaceText p t).1 = .ok () →
      (d.replaceText p t).2.readText p = .ok t := by
  intro h
  have hread := h ring ringPath "new\n".toList (by decide) rfl
  have hcut : (ring.replaceText ringPath "new\n".toList).2.readText ringPath
      = .error (.disk .notDirectory) := rfl
  rw [hcut] at hread
  cases hread

def longName : Name := List.replicate 51 '𝄞'

/-- The location that many directories with this name below the working
directory. -/
def cellar (depth : Nat) : Location := fresh.workDir ++ List.replicate depth longName

/-- Twenty directories with a long name, one in the other, and a file in the
last one. The real path of the file is too long, but there is a short path
to it. In every fourth directory there is a link that leads four directories
down, and the link `l` leads along these. Beside it there are a link to `l`
and one that leads back. -/
def deep (t : Text) : Disk :=
  let links : List (Location × Node) :=
    [(fresh.workDir ++ [['l']], .link "k/k/k/k/k/f".toList),
     (fresh.workDir ++ [['m']], .link ['l']),
     (fresh.workDir ++ [['s']], .link ['.'])]
  let shortcuts := [0, 4, 8, 12, 16].map fun depth =>
    (cellar depth ++ [['k']], Node.link (['/'].intercalate (List.replicate 4 longName)))
  let folders := (List.range 20).map fun depth => (cellar (depth + 1), Node.dir Node.dirMode)
  (links ++ shortcuts ++ folders).foldl (fun d e => d.put e.1 e.2) fresh
    |>.put (cellar 20 ++ [['f']]) (.file Node.fileMode (Utf8.encode t))

theorem outline_deep (t : Text) : (deep t).outline = (deep []).outline := rfl

theorem resolve_deep (t : Text) :
    (deep t).resolve ['l'] = .ok (cellar 20 ++ [['f']], .file Node.fileMode (Utf8.encode t)) := by
  have hloc : (deep []).locate ['l'] = .ok (cellar 20 ++ [['f']]) := by decide +kernel
  refine resolve_eq_ok_iff.mpr ⟨?_, node?_put_self _ (List.append_ne_nil_of_right_ne_nil _ (by simp)) _⟩
  rw [locate_eq_of_outline (outline_deep t), hloc]

theorem isTree_deep (t : Text) : (deep t).IsTree := by
  rw [← isTree_outline, outline_deep, isTree_outline]
  decide +kernel

end Disk

end Upkeep
