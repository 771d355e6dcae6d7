import Upkeep.Proofs.Aliasing
import Upkeep.Proofs.Replacement

/-!
# The contract of revising one file

`reviseFile` reads, revises and replaces, and each of the three can fail.
Whatever it answers tells what became of the disk. After a failure, and
where nothing was to be changed, the disk is what it was. After an update
one entry differs: it holds the revised text, with the mode of the file,
and the path leads to it. So revising the path again finds nothing to do
(`reviseFile_contract`).

That entry is the file itself, as long as its real path can be told. If it
cannot, a link that the path names is replaced by a file, and what it led
to stays behind unrevised (`Disk.place_cases`).

An update also means that some rule had a match (`passed_of_countHits`).
-/

namespace Upkeep

/-! ## Hits -/

theorem Rule.pass_fst_of_zero {r : Rule} {t : Text} (h : (r.pass t).2 = 0) : (r.pass t).1 = t := by
  unfold Rule.pass at h ⊢
  rw [List.length_eq_zero_iff.mp h]
  rfl

/-- Passes without a match copy the text. -/
theorem Rule.passed_of_countHits {rules : List Rule} {t : Text}
    (h : countHits (Rule.passAll rules t).2 = 0) : Rule.passed rules t = t := by
  induction rules with
  | nil => rfl
  | cons r rules ih =>
      simp only [Rule.passAll] at h
      split at h
      · rename_i hzero
        rw [Rule.pass_fst_of_zero hzero] at h
        show Rule.passed rules (r.pass t).1 = t
        rw [Rule.pass_fst_of_zero hzero]
        exact ih h
      · rename_i hsome
        exact absurd (Nat.eq_zero_of_add_eq_zero_right h) hsome

/-- A text only changes where a rule has a match. -/
theorem RuleSet.totalHits_pos {set : RuleSet} {t : Text} {r : Revision}
    (h : set.revise t = .ok r) (hne : r.text ≠ t) : 1 ≤ r.totalHits := by
  refine Nat.one_le_iff_ne_zero.mpr ?_
  intro hzero
  rw [Revision.totalHits, RuleSet.hits_of_revise h] at hzero
  refine hne ?_
  rw [(RuleSet.revise_eq_ok h).1]
  exact Rule.passed_of_countHits hzero

/-! ## One file -/

section OneFile

variable {set : RuleSet} {d : Disk} {p : Path}

/-- The path of a replaced file leads to what was set. If that is not the
file itself, it was a link, and a path that led to a file does not pass
through the link that it names. -/
theorem Disk.IsTree.resolve_put_place (ht : d.IsTree) {loc place : Location} {mode : Nat}
    {bytes : List UInt8} (hres : d.resolve p = .ok (loc, .file mode bytes))
    (hclear : d.clearance p = .ok place) (bytes' : List UInt8) :
    (d.put place (.file mode bytes')).resolve p = .ok (place, .file mode bytes') := by
  rcases Disk.place_cases hres hclear with rfl | ⟨-, hentry, target, hlink⟩
  · exact Disk.resolve_put_file hres bytes'
  · have hclears := Disk.clearance_eq_ok_iff.mp hclear
    have hfree : ¬ d.IsFolder place := by
      rintro ⟨mode, hdir⟩
      exact hclears.free mode hdir
    refine Disk.resolve_of_entry hentry (Disk.replacedAt_put d hclears.root _) fun hpass => ?_
    rcases Disk.resolve_of_passesThrough ht hentry hfree hpass with hloop | ⟨l, mode, hdir⟩
    · rw [hres] at hloop
      cases hloop
    · rw [hres] at hdir
      cases hdir

/-- A file with a text that was changed has come to rest. -/
theorem reviseFile_of_revised {loc : Location} {mode : Nat} {t : Text} {r : Revision}
    (hres : d.resolve p = .ok (loc, .file mode (Utf8.encode r.text)))
    (hr : set.revise t = .ok r) (hc : r.changed = true) :
    reviseFile set .write d p = (.ok .unchanged, d) := by
  exact reviseFile_of_unchanged (loadText_of_file hres) (RuleSet.revise_text_of_changed hr hc) rfl

/-- **The contract of revising a file** on a disk that is a tree. An error
or no change leaves the whole disk as it was. An update replaces the text
of the file that the path leads to by its revision, which differs from it
and has at least one hit; the mode stays, everything else stays, and
revising once more changes nothing. If the real path of the file cannot be
told, a link that the path names may be replaced in the place of the file.
A dry run leaves the disk alone and answers the same, unless the update is
prevented. -/
theorem reviseFile_contract (ht : d.IsTree) (set : RuleSet) (p : Path) :
    let done := reviseFile set .write d p
    let dry := reviseFile set .dryRun d p
    (∀ failure, done.1 = .error failure → done.2 = d)
      ∧ (done.1 = .ok .unchanged → done.2 = d)
      ∧ (∀ hits, done.1 = .ok (.updated hits) →
        ∃ loc place mode bytes t r, d.resolve p = .ok (loc, .file mode bytes) ∧ d.readText p = .ok t
          ∧ set.revise t = .ok r ∧ r.text ≠ t ∧ hits = r.totalHits ∧ 1 ≤ hits
          ∧ d.ReplacedAt place (.file mode (Utf8.encode r.text)) done.2
          ∧ (place = loc ∨ d.hasRealPath p = false ∧ d.entry p = .ok place
            ∧ ∃ target, d.node? place = some (.link target))
          ∧ done.2.resolve p = .ok (place, .file mode (Utf8.encode r.text))
          ∧ done.2.readBytes p = .ok (Utf8.encode r.text)
          ∧ reviseFile set .write done.2 p = (.ok .unchanged, done.2))
      ∧ dry.2 = d
      ∧ (dry.1 = done.1 ∨ ∃ cause hits, done.1 = .error (.write p cause)
        ∧ d.clearance p = .error cause ∧ dry.1 = .ok (.updated hits)) := by
  intro done dry
  rcases reviseFile_cases set d p with
    ⟨-, hsame, hstep⟩ | ⟨loc, mode, bytes, t, r, hres, hdec, hr, hc, -, hdry, hwrite⟩
  · have hdone : done = (verdict set p (d.found p), d) := hstep .write
    have hdry : dry = (verdict set p (d.found p), d) := hstep .dryRun
    rw [hdone, hdry]
    exact ⟨fun _ _ => rfl, fun _ => rfl, fun hits h => absurd h (hsame hits), rfl, .inl rfl⟩
  · have hdry : dry = (.ok (.updated r.totalHits), d) := hdry
    cases hclear : d.clearance p with
    | error cause =>
        rw [hclear] at hwrite
        have hdone : done = (.error (.write p cause), d) := hwrite
        rw [hdone, hdry]
        refine ⟨fun _ _ => rfl, fun _ => rfl, ?_, rfl, .inr ⟨cause, r.totalHits, rfl, rfl, rfl⟩⟩
        intro hits h
        cases h
    | ok place =>
        rw [hclear] at hwrite
        have hdone : done
            = (.ok (.updated r.totalHits), d.put place (.file mode (Utf8.encode r.text))) := hwrite
        have hne : r.text ≠ t := (RuleSet.revise_eq_ok hr).2.1.mp hc
        have hagain := ht.resolve_put_place hres hclear (Utf8.encode r.text)
        have hroot := (Disk.clearance_eq_ok_iff.mp hclear).root
        have hread : d.readText p = .ok t := by
          rw [Disk.readText, Disk.readBytes_of_file hres]
          simp only [hdec]
        rw [hdone, hdry]
        refine ⟨?_, ?_, ?_, rfl, .inl rfl⟩
        · intro failure h
          cases h
        · intro h
          cases h
        · intro hits h
          cases h
          exact ⟨loc, place, mode, bytes, t, r, hres, hread, hr, hne, rfl,
            RuleSet.totalHits_pos hr hne, Disk.replacedAt_put d hroot _, Disk.place_cases hres hclear, hagain,
            Disk.readBytes_of_file hagain, reviseFile_of_revised hagain hr hc⟩

end OneFile

theorem reviseFile_contract_linked :
    (reviseFile .shortening .write linked "t/b.peb".toList).1 = .ok (.updated 1)
      ∧ ∃ loc mode, linked.resolve "t/b.peb".toList
          = .ok (loc, .file mode (Utf8.encode "aabbcc cc".toList))
        ∧ linked.ReplacedAt loc (.file mode (Utf8.encode "aabb cc".toList))
          (reviseFile .shortening .write linked "t/b.peb".toList).2 := by
  have hdone : (reviseFile .shortening .write linked "t/b.peb".toList).1 = .ok (.updated 1) := rfl
  refine ⟨hdone, ?_⟩
  obtain ⟨loc, place, mode, bytes, t, r, hres, hread, hr, -, -, -, hput, hplace, -⟩ :=
    (reviseFile_contract (d := linked) (by decide +kernel) .shortening "t/b.peb".toList).2.2.1 1 hdone
  have htext : linked.readText "t/b.peb".toList = .ok "aabbcc cc".toList := rfl
  have hrevise : RuleSet.shortening.revise "aabbcc cc".toList
      = .ok ⟨"aabb cc".toList, [("shorten", 1)], true⟩ := rfl
  have hfile : linked.resolve "t/b.peb".toList
      = .ok (["srv".toList, "work".toList, "t".toList, "a.peb".toList],
          .file Node.fileMode (Utf8.encode "aabbcc cc".toList)) := rfl
  obtain rfl := Except.ok.inj (htext.symm.trans hread)
  obtain rfl := Except.ok.inj (hrevise.symm.trans hr)
  obtain ⟨rfl, hnode⟩ := Prod.mk.inj (Except.ok.inj (hfile.symm.trans hres))
  obtain ⟨rfl, rfl⟩ := Node.file.inj hnode
  rcases hplace with rfl | ⟨hreal, -⟩
  · exact ⟨_, _, hres, hput⟩
  · have : linked.hasRealPath "t/b.peb".toList = true := by decide +kernel
    rw [this] at hreal
    cases hreal

/-- An update does not always reach the file that the path leads to. -/
theorem reviseFile_not_through_links :
    ¬ ∀ (set : RuleSet) (d : Disk) (p : Path) (loc : Location) (mode : Nat) (bytes : List UInt8)
        (hits : Nat), d.IsTree → d.resolve p = .ok (loc, .file mode bytes) →
      (reviseFile set .write d p).1 = .ok (.updated hits) →
        ∀ l ≠ loc, (reviseFile set .write d p).2.node? l = d.node? l := by
  intro h
  have hdone : (reviseFile .shortening .write (.deep "aabbcc cc".toList) ['l']).1
      = .ok (.updated 1) := by decide +kernel
  have hsame := h .shortening _ ['l'] _ _ _ 1 (Disk.isTree_deep _) (Disk.resolve_deep _) hdone
    (Disk.fresh.workDir ++ [['l']]) (by decide +kernel)
  have hfile : (reviseFile .shortening .write (.deep "aabbcc cc".toList) ['l']).2.node?
      (Disk.fresh.workDir ++ [['l']])
      = some (.file Node.fileMode (Utf8.encode "aabb cc".toList)) := by decide +kernel
  have hlink : (Disk.deep "aabbcc cc".toList).node? (Disk.fresh.workDir ++ [['l']])
      = some (.link "k/k/k/k/k/f".toList) := by decide +kernel
  rw [hfile, hlink] at hsame
  cases hsame

end Upkeep
