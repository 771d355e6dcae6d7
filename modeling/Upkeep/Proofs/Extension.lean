import Upkeep.Proofs.Fatal

/-!
# Which files are templates

The settings and the listing of a directory have their own notions of an
extension. The settings take any text, strip the dots in front and refuse
what is empty then. The listing asks for what follows the last dot of a
name, if something stands before that dot.

Without a dot in the extension both agree: the files revised are those
whose name is a stem, a dot and the extension. With a dot further inside
no name has the extension, and nothing is revised at all
(`simplifyTemplates_processed`). Such an extension is taken all the same,
so a file whose name ends in it is passed over (`dotted_passed_over`).
-/

namespace Upkeep

/-! ## The extension of a name -/

theorem Path.extension?_eq_some_iff {n : Name} {ext : Text} :
    extension? n = some ext ↔ '.' ∉ ext ∧ ∃ stem, stem ≠ [] ∧ n = stem ++ '.' :: ext := by
  constructor
  · intro h
    simp only [extension?] at h
    split at h
    · cases h
    · rename_i c stem hdrop
      split at h
      · cases h
      · rename_i hne
        obtain rfl := Option.some.inj h
        have hdot : c = '.' := by
          have hhead := List.head?_dropWhile_not (p := (· ≠ '.')) (l := n.reverse)
          rw [hdrop] at hhead
          simpa using hhead
        have hname := congrArg List.reverse
          (List.takeWhile_append_dropWhile (p := (· ≠ '.')) (l := n.reverse))
        refine ⟨?_, stem.reverse, ?_, ?_⟩
        · rw [List.mem_reverse]
          intro hmem
          simpa using List.all_eq_true.mp List.all_takeWhile _ hmem
        · simpa using hne
        · rw [hdrop, hdot] at hname
          simpa using hname.symm
  · rintro ⟨hdot, stem, hne, rfl⟩
    have hall : ∀ c ∈ ext.reverse, decide (c ≠ '.') = true := by
      intro c hc
      rw [decide_eq_true_eq]
      rintro rfl
      exact hdot (List.mem_reverse.mp hc)
    have hrev : (stem ++ '.' :: ext).reverse = ext.reverse ++ '.' :: stem.reverse := by simp
    simp only [extension?, hrev]
    rw [List.dropWhile_append_of_pos hall, List.takeWhile_append_of_pos hall]
    simp [hne]

namespace Disk

/-! ## The entries of a directory -/

theorem mem_namesIn {d : Disk} {loc : Location} {n : Name} :
    n ∈ d.namesIn loc ↔ (d.node? (loc ++ [n])).isSome = true := by
  have hne : loc ++ [n] ≠ [] := List.append_ne_nil_of_right_ne_nil loc (List.cons_ne_nil n [])
  rw [node?, if_neg hne, List.lookup_isSome_iff, namesIn, List.mem_filterMap]
  constructor
  · rintro ⟨e, he, hn⟩
    split at hn
    · rename_i hloc
      have hkey : loc ++ [n] = e.1 := by
        rw [← hloc]
        exact List.dropLast_append_getLast? n hn
      exact ⟨e, he, beq_iff_eq.mpr hkey⟩
    · cases hn
  · rintro ⟨e, he, hkey⟩
    refine ⟨e, he, ?_⟩
    rw [← beq_iff_eq.mp hkey, List.dropLast_concat, if_pos rfl, List.getLast?_concat]

/-- The path leads to a file directly inside the directory `dir`, which is
at `loc`, and the name of the file is a stem, a dot and `ext`. -/
def IsTemplate (d : Disk) (dir : Path) (loc : Location) (ext : Text) (p : Path) : Prop :=
  ∃ stem : Text, stem ≠ [] ∧ (d.node? (loc ++ [stem ++ '.' :: ext])).isSome = true
    ∧ p = dir.join (stem ++ '.' :: ext) ∧ d.isFile p = true

/-- What is listed are the templates, unless a dot in the extension keeps
all of them out. -/
theorem mem_listFiles {d : Disk} {dir : Path} {loc : Location} {dirMode : Nat} {ext : Text}
    {paths : List Path} (hdir : d.resolve dir = .ok (loc, .dir dirMode))
    (h : d.listFiles dir ext = .ok paths) {p : Path} :
    p ∈ paths ↔ '.' ∉ ext ∧ d.IsTemplate dir loc ext p := by
  rw [listFiles, hdir] at h
  obtain rfl := Except.ok.inj h
  simp only [List.mem_filter, List.mem_map, sortedNames, List.mem_mergeSort, mem_namesIn,
    beq_iff_eq, Path.extension?_eq_some_iff]
  constructor
  · rintro ⟨⟨n, ⟨hnode, hdot, stem, hne, rfl⟩, rfl⟩, hfile⟩
    exact ⟨hdot, stem, hne, hnode, rfl, hfile⟩
  · rintro ⟨hdot, stem, hne, hnode, rfl, hfile⟩
    exact ⟨⟨_, ⟨hnode, hdot, stem, hne, rfl⟩, rfl⟩, hfile⟩

end Disk

/-! ## The extension in the settings -/

namespace Settings

theorem head?_stripDots (ext : Text) : (stripDots ext).head? ≠ some '.' := by
  intro h
  have hhead := List.head?_dropWhile_not (p := (· == '.')) (l := ext)
  rw [stripDots] at h
  rw [h] at hhead
  cases hhead

theorem templateExtension_of_override {s s' : Settings} {o : Overrides}
    (hs : s.templateExtension ≠ [] ∧ s.templateExtension.head? ≠ some '.')
    (h : s.override o = .ok s') :
    s'.templateExtension ≠ [] ∧ s'.templateExtension.head? ≠ some '.' := by
  unfold override at h
  cases hext : o.templateExtension with
  | none =>
      rw [hext] at h
      obtain rfl := Except.ok.inj h
      exact hs
  | some ext =>
      rw [hext] at h
      by_cases hempty : (stripDots ext).isEmpty = true
      · simp only [if_pos hempty] at h
        cases h
      · simp only [if_neg hempty] at h
        obtain rfl := Except.ok.inj h
        exact ⟨fun hnil => hempty (List.isEmpty_iff.mpr hnil), head?_stripDots ext⟩

theorem templateExtension_default (root : Path) :
    (default root).templateExtension ≠ [] ∧ (default root).templateExtension.head? ≠ some '.' := by
  show "peb".toList ≠ [] ∧ "peb".toList.head? ≠ some '.'
  decide

theorem templateExtension_of_loadFile {d : Disk} {root path : Path} {s : Settings}
    (h : loadFile d root path = .ok s) :
    s.templateExtension ≠ [] ∧ s.templateExtension.head? ≠ some '.' := by
  unfold loadFile at h
  split at h
  · cases h
  · rename_i t ht
    cases hread : readOverrides path t with
    | error e =>
        rw [hread] at h
        cases h
    | ok o =>
        rw [hread] at h
        exact templateExtension_of_override (templateExtension_default root) h

/-- The extension of loaded settings is not empty and starts with no
dot. -/
theorem templateExtension_of_load {d : Disk} {root : Path} {config : Option Path} {s : Settings}
    (h : load d root config = .ok s) :
    s.templateExtension ≠ [] ∧ s.templateExtension.head? ≠ some '.' := by
  unfold load at h
  cases config with
  | some path => exact templateExtension_of_loadFile h
  | none =>
      by_cases hfile : d.isFile (root.join fileName) = true
      · simp only [if_pos hfile] at h
        exact templateExtension_of_loadFile h
      · simp only [if_neg hfile] at h
        obtain rfl := Except.ok.inj h
        exact templateExtension_default root

end Settings

/-! ## The files that are revised -/

theorem simplifyTemplates_paths {s : Settings} {d : Disk} {loc : Location} {dirMode : Nat} (mode : WriteMode)
    (hdir : d.resolve s.templatesPath = .ok (loc, .dir dirMode)) :
    ∃ report, (simplifyTemplates s mode d).result = .ok report
      ∧ ∀ p, p ∈ report.files.map (·.path) ↔ '.' ∉ s.templateExtension
        ∧ d.IsTemplate s.templatesPath loc s.templateExtension p := by
  have hisDir : d.isDir s.templatesPath = true := by
    simp [Disk.isDir, Disk.find?, hdir, Node.isDir]
  have hneeds : ¬ Job.templates.LacksTemplates s d := by
    rintro ⟨-, hnone⟩
    rw [hisDir] at hnone
    cases hnone
  rcases yields_simplifyTemplates s mode d with ⟨fatal, -, hnone⟩ | ⟨set, paths, hjob, heq⟩
  · obtain ⟨set, paths, hjob⟩ := Job.exists_processes (by decide) hneeds
    exact absurd hjob (hnone set paths)
  · cases hjob with
    | templates hset hlist =>
        refine ⟨(runBatch set mode d paths).1, by rw [heq]; rfl, ?_⟩
        intro p
        rw [runBatch_files, map_path_outcomes]
        exact Disk.mem_listFiles hdir hlist

/-- **The files that are revised** as templates, for any settings that are
loaded. Their extension is not empty and starts with no dot. If there is
no dot in it at all, the templates are revised and nothing else. If there
is one, nothing is revised. -/
theorem simplifyTemplates_processed {d : Disk} {root : Path} {config : Option Path} {s : Settings}
    {loc : Location} {dirMode : Nat} (mode : WriteMode)
    (hload : Settings.load d root config = .ok s)
    (hdir : d.resolve s.templatesPath = .ok (loc, .dir dirMode)) :
    s.templateExtension ≠ [] ∧ s.templateExtension.head? ≠ some '.'
      ∧ ∃ report, (simplifyTemplates s mode d).result = .ok report
        ∧ ('.' ∉ s.templateExtension → ∀ p, p ∈ report.files.map (·.path) ↔
          d.IsTemplate s.templatesPath loc s.templateExtension p)
        ∧ ('.' ∈ s.templateExtension → report.files = []) := by
  obtain ⟨hne, hhead⟩ := Settings.templateExtension_of_load hload
  obtain ⟨report, hreport, hpaths⟩ := simplifyTemplates_paths mode hdir
  refine ⟨hne, hhead, report, hreport, ?_, ?_⟩
  · intro hdot p
    rw [hpaths]
    exact and_iff_right hdot
  · intro hdot
    refine List.eq_nil_iff_forall_not_mem.mpr ?_
    intro f hf
    exact ((hpaths f.path).mp (List.mem_map_of_mem hf)).1 hdot

/-- A settings file that names the directory `t` and an extension. -/
def settingsText (ext : Text) : Text :=
  "[template_tidy]\ntemplates_dir=\"t\"\ntemplate_extension=\"".toList ++ ext ++ "\"\n".toList

def project (ext : Text) (name : Name) : Disk where
  nodes :=
    [(["work".toList], .dir Node.dirMode),
     (["work".toList, Settings.fileName], .file Node.fileMode (Utf8.encode (settingsText ext))),
     (["work".toList, "t".toList], .dir Node.dirMode),
     (["work".toList, "t".toList, name], .file Node.fileMode [])]
  drafts := []
  workDir := ["work".toList]
  distinct := by
    have hne : Settings.fileName ≠ ['t'] := by decide
    simp [hne]

/-- The settings of the project, with the extension as it is stored. -/
def projectSettings (ext : Text) : Settings :=
  { Settings.default Path.selfName with templatesDir := "t".toList, templateExtension := ext }

theorem load_project {ext stored : Text} {name : Name}
    (hread : Settings.readOverrides (Path.join Path.selfName Settings.fileName) (settingsText ext)
      = .ok ⟨some "t".toList, some ext, none, none⟩)
    (hstored : Settings.stripDots ext = stored) (hne : stored ≠ []) :
    Settings.load (project ext name) Path.selfName none = .ok (projectSettings stored) := by
  have hload : Settings.load (project ext name) Path.selfName none
      = Settings.loadFile (project ext name) Path.selfName
        (Path.join Path.selfName Settings.fileName) := rfl
  have hbytes : (project ext name).readBytes (Path.join Path.selfName Settings.fileName)
      = .ok (Utf8.encode (settingsText ext)) := rfl
  have htext : (project ext name).readText (Path.join Path.selfName Settings.fileName)
      = .ok (settingsText ext) := by
    rw [Disk.readText, hbytes]
    simp only [Utf8.decode_encode]
  have hkept : stored.isEmpty ≠ true := by simpa using hne
  have hstore : (Settings.default Path.selfName).override ⟨some "t".toList, some ext, none, none⟩
      = .ok (projectSettings stored) := by
    simp only [Settings.override, hstored, if_neg hkept]
    rfl
  simp only [hload, Settings.loadFile, htext, hread]
  exact hstore

theorem resolve_project (ext stored : Text) (name : Name) :
    (project ext name).resolve (projectSettings stored).templatesPath
      = .ok (["work".toList, "t".toList], .dir Node.dirMode) :=
  rfl

theorem simplifyTemplates_processed_plain :
    Settings.load (project ".peb".toList "a.kt.peb".toList) Path.selfName none
        = .ok (projectSettings "peb".toList)
      ∧ ∃ report,
        (simplifyTemplates (projectSettings "peb".toList) .write
          (project ".peb".toList "a.kt.peb".toList)).result = .ok report
        ∧ "./t/a.kt.peb".toList ∈ report.files.map (·.path) := by
  have hload : Settings.load (project ".peb".toList "a.kt.peb".toList) Path.selfName none
      = .ok (projectSettings "peb".toList) :=
    load_project (by decide +kernel) (by decide) (by decide)
  have hdir := resolve_project ".peb".toList "peb".toList "a.kt.peb".toList
  obtain ⟨-, -, report, hreport, hpaths, -⟩ := simplifyTemplates_processed .write hload hdir
  refine ⟨hload, report, hreport, (hpaths (by decide) _).mpr ?_⟩
  exact ⟨"a.kt".toList, by decide, by decide +kernel, rfl, by decide +kernel⟩

/-- **A dot inside the extension** is taken by the settings, and a file
whose name ends in a dot and that extension is passed over. -/
theorem dotted_passed_over :
    Settings.load (project "kt.peb".toList "a.kt.peb".toList) Path.selfName none
        = .ok (projectSettings "kt.peb".toList)
      ∧ (project "kt.peb".toList "a.kt.peb".toList).IsTemplate
        (projectSettings "kt.peb".toList).templatesPath ["work".toList, "t".toList]
        (projectSettings "kt.peb".toList).templateExtension "./t/a.kt.peb".toList
      ∧ ∃ report,
        (simplifyTemplates (projectSettings "kt.peb".toList) .write
          (project "kt.peb".toList "a.kt.peb".toList)).result = .ok report
        ∧ "./t/a.kt.peb".toList ∉ report.files.map (·.path) := by
  have hload : Settings.load (project "kt.peb".toList "a.kt.peb".toList) Path.selfName none
      = .ok (projectSettings "kt.peb".toList) :=
    load_project (by decide +kernel) (by decide) (by decide)
  have hdir := resolve_project "kt.peb".toList "kt.peb".toList "a.kt.peb".toList
  obtain ⟨report, hreport, hpaths⟩ := simplifyTemplates_paths .write hdir
  refine ⟨hload, ?_, report, hreport, ?_⟩
  · exact ⟨"a".toList, by decide, by decide +kernel, rfl, by decide +kernel⟩
  · intro hmem
    exact ((hpaths _).mp hmem).1 (by decide)

end Upkeep
