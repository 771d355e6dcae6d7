import Upkeep.Proofs.Outline

/-!
# What stands in the way of a replacement

A file is replaced in stages, and every stage may be refused. What the
disk looks like in between matters to none of them, so the checks can be
made in advance: `Disk.clearance` gives the first fault that is met, or
the location that is set in the end. Replacing a file comes to that
(`replaceBytes_eq`). After a fault the disk is what it was, drafts
included.

The clearance of a path depends on the outline of the disk and on the
letters drawn for the draft (`clearance_of_outline`). Where real paths can
be told it is the same for all paths to one file (`clearance_of_realPath`).
-/

namespace Upkeep

section Checks

variable {ε ε' α β : Type}

theorem bind_eq_ok_iff {x : Except ε α} {f : α → Except ε β} {b : β} :
    x >>= f = .ok b ↔ ∃ a, x = .ok a ∧ f a = .ok b := by
  cases x <;> simp [bind, Except.bind]

theorem mapError_error (f : ε → ε') (e : ε) :
    (.error e : Except ε α).mapError f = .error (f e) := rfl

theorem mapError_ok (f : ε → ε') (a : α) : (.ok a : Except ε α).mapError f = .ok a := rfl

theorem mapError_eq_ok_iff {x : Except ε α} {f : ε → ε'} {a : α} :
    x.mapError f = .ok a ↔ x = .ok a := by
  cases x <;> simp [mapError_error, mapError_ok]

theorem exists_unit_iff {P : Unit → Prop} : (∃ u, P u) ↔ P () :=
  ⟨fun ⟨(), h⟩ => h, fun h => ⟨(), h⟩⟩

end Checks

namespace Disk

/-! ## The checks in advance -/

/-- The checks up to the point where the draft is filled, and its
directory. -/
def draftCheck (d : Disk) (site : Site) : Except DiskFault Location := do
  checkPath (d.draftPath site.folder)
  let home ← site.home
  d.permit .make home
  d.permit .fill home
  .ok home

/-- A mode is set only if there is one to set. -/
def modeCheck (d : Disk) (bits : Option Nat) (home : Location) : Except DiskFault Unit :=
  if bits.isSome then d.permit .setMode home else .ok ()

/-- A location that a draft can be renamed to. -/
def renameCheck (d : Disk) (loc : Location) : Except DiskFault Unit := do
  d.permit .rename loc
  if loc = [] then .error .busy
  else if (d.node? loc).any Node.isDir then .error .isDirectory
  else .ok ()

/-- The checks behind that, for a draft that may need a mode. -/
def settleCheck (d : Disk) (site : Site) (bits : Option Nat) (home : Location) :
    Except DiskFault Location := do
  d.modeCheck bits home
  let loc ← site.place
  d.renameCheck loc
  .ok loc

/-- The location that is set when the file at a path is replaced, unless
something stands in the way. -/
def clearance (d : Disk) (p : Path) : Except WriteFault Location := do
  let site := d.site p
  let home ← (d.draftCheck site).mapError (.temporary · (d.draftPath site.folder))
  (d.settleCheck site (d.modeAt? p) home).mapError .replace

/-- Permission bits of the file that replaces what a path leads to. -/
def newMode (d : Disk) (p : Path) : Nat := (d.modeAt? p).getD Node.privateMode

/-! ## The stages -/

theorem renameDraft_addDraft (d : Disk) (draft : Draft) (loc : Location) :
    (d.addDraft draft).renameDraft loc
      = (d.renameCheck loc).map fun _ => d.put loc (.file draft.mode draft.bytes) := by
  have hpermit : (d.addDraft draft).permit .rename loc = d.permit .rename loc := rfl
  have hnode : (d.addDraft draft).node? loc = d.node? loc := rfl
  simp only [renameDraft, addDraft, renameCheck] at hpermit hnode ⊢
  rw [hpermit, hnode]
  cases d.permit .rename loc with
  | error fault => rfl
  | ok u =>
      by_cases hroot : loc = []
      · simp only [bind, Except.bind, if_pos hroot]
        rfl
      · simp only [bind, Except.bind, if_neg hroot]
        cases d.node? loc with
        | none => rfl
        | some node => cases node <;> rfl

theorem setDraftMode_addDraft (d : Disk) (home : Location) (bits : Option Nat)
    (bytes : List UInt8) :
    (d.addDraft ⟨home, Node.privateMode, bytes⟩).setDraftMode bits
      = (d.modeCheck bits home).map fun _ => d.addDraft ⟨home, bits.getD Node.privateMode, bytes⟩ := by
  cases bits with
  | none => rfl
  | some mode =>
      have hpermit : (d.addDraft ⟨home, Node.privateMode, bytes⟩).permit .setMode home
          = d.permit .setMode home := rfl
      simp only [setDraftMode, addDraft] at hpermit ⊢
      rw [hpermit, modeCheck, Option.isSome_some, if_pos rfl]
      cases d.permit .setMode home <;> rfl

/-- An empty draft is settled as the checks say. -/
theorem settleDraft_addDraft (d : Disk) (home : Location) (site : Site) (bits : Option Nat)
    (bytes : List UInt8) :
    (d.addDraft ⟨home, Node.privateMode, []⟩).settleDraft site bits bytes
      = match d.permit .fill home with
        | .error fault => .error (.temporary fault (d.draftPath site.folder))
        | .ok () =>
            match d.settleCheck site bits home with
            | .error fault => .error (.replace fault)
            | .ok loc => .ok (d.put loc (.file (bits.getD Node.privateMode) bytes)) := by
  have hfill : (d.addDraft ⟨home, Node.privateMode, []⟩).fillDraft bytes
      = (d.permit .fill home).map fun _ => d.addDraft ⟨home, Node.privateMode, bytes⟩ := by
    have hpermit : (d.addDraft ⟨home, Node.privateMode, []⟩).permit .fill home
        = d.permit .fill home := rfl
    simp only [fillDraft, addDraft] at hpermit ⊢
    rw [hpermit]
    cases d.permit .fill home <;> rfl
  have hpath : (d.addDraft ⟨home, Node.privateMode, []⟩).draftPath site.folder
      = d.draftPath site.folder := rfl
  rw [settleDraft, hfill, hpath]
  cases d.permit .fill home with
  | error fault => rfl
  | ok u =>
      simp only [bind, Except.bind, Except.map, mapError_ok, setDraftMode_addDraft, settleCheck]
      cases d.modeCheck bits home with
      | error fault => rfl
      | ok u =>
          cases site.place with
          | error fault => rfl
          | ok loc =>
              simp only [renameDraft_addDraft]
              cases d.renameCheck loc <;> rfl

/-- **Replacing a file** comes to the checks. -/
theorem replaceBytes_eq (d : Disk) (p : Path) (bytes : List UInt8) :
    d.replaceBytes p bytes =
      match d.clearance p with
      | .error fault => (.error fault, d)
      | .ok loc => (.ok (), d.put loc (.file (d.newMode p) bytes)) := by
  have hdrop : ∀ draft, (d.addDraft draft).dropDraft = d := fun _ => rfl
  unfold replaceBytes
  simp only [openDraft, clearance, draftCheck]
  cases checkPath (d.draftPath (d.site p).folder) with
  | error fault => rfl
  | ok u =>
      cases (d.site p).home with
      | error fault => rfl
      | ok home =>
          cases hmake : d.permit .make home with
          | error fault => simp only [bind, Except.bind, mapError_error, hmake]
          | ok u =>
              simp only [bind, Except.bind, hmake, settleDraft_addDraft, hdrop]
              cases d.permit .fill home with
              | error fault => rfl
              | ok u =>
                  cases hsettle : d.settleCheck (d.site p) (d.modeAt? p) home with
                  | error fault => simp only [mapError_error, mapError_ok, hsettle]
                  | ok loc => simp only [mapError_ok, hsettle, newMode]

/-- Nothing stands in the way of setting this location. -/
structure Clears (d : Disk) (p : Path) (loc : Location) : Prop where
  path : checkPath (d.draftPath (d.site p).folder) = .ok ()
  home : ∃ home, (d.site p).home = .ok home ∧ d.permit .make home = .ok ()
    ∧ d.permit .fill home = .ok () ∧ ((d.modeAt? p).isSome = true → d.permit .setMode home = .ok ())
  place : (d.site p).place = .ok loc
  rename : d.permit .rename loc = .ok ()
  root : loc ≠ []
  free : ∀ mode, d.node? loc ≠ some (.dir mode)

theorem renameCheck_eq_ok_iff {d : Disk} {loc : Location} :
    d.renameCheck loc = .ok () ↔ d.permit .rename loc = .ok () ∧ loc ≠ []
      ∧ ∀ mode, d.node? loc ≠ some (.dir mode) := by
  have hdir : (d.node? loc).any Node.isDir = true ↔ ∃ mode, d.node? loc = some (.dir mode) := by
    cases d.node? loc with
    | none => simp
    | some node => cases node <;> simp [Node.isDir]
  rw [renameCheck, bind_eq_ok_iff, exists_unit_iff]
  refine and_congr_right fun _ => ?_
  by_cases hroot : loc = []
  · simp [hroot]
  · simp [hroot, hdir]

theorem modeCheck_eq_ok_iff {d : Disk} {bits : Option Nat} {home : Location} :
    d.modeCheck bits home = .ok () ↔ (bits.isSome = true → d.permit .setMode home = .ok ()) := by
  unfold modeCheck
  split <;> simp_all

theorem clearance_eq_ok_iff {d : Disk} {p : Path} {loc : Location} :
    d.clearance p = .ok loc ↔ d.Clears p loc := by
  simp only [clearance, draftCheck, settleCheck, bind_eq_ok_iff, mapError_eq_ok_iff,
    exists_unit_iff, modeCheck_eq_ok_iff, renameCheck_eq_ok_iff, Except.ok.injEq]
  constructor
  · rintro ⟨home, ⟨hpath, home', hhome, hmake, hfill, rfl⟩, hmode, loc', hplace,
      ⟨hrename, hroot, hfree⟩, rfl⟩
    exact ⟨hpath, ⟨home', hhome, hmake, hfill, hmode⟩, hplace, hrename, hroot, hfree⟩
  · rintro ⟨hpath, ⟨home, hhome, hmake, hfill, hmode⟩, hplace, hrename, hroot, hfree⟩
    exact ⟨home, ⟨hpath, home, hhome, hmake, hfill, rfl⟩, hmode, loc, hplace,
      ⟨hrename, hroot, hfree⟩, rfl⟩

/-! ## What it depends on -/

theorem clearance_congr {d : Disk} {p q : Path} (hsite : d.site p = d.site q)
    (hmode : d.modeAt? p = d.modeAt? q) : d.clearance p = d.clearance q := by
  rw [clearance, clearance, hsite, hmode]

/-- Real paths of one location are cleared alike. -/
theorem clearance_of_realPath {d : Disk} {p q : Path} {loc : Location}
    (hp : d.realPath? p = some loc) (hq : d.realPath? q = some loc) :
    d.clearance p = d.clearance q := by
  refine clearance_congr ?_ ?_
  · rw [site, site, hp, hq]
  · obtain ⟨-, node, hnode⟩ := realPath?_eq_some.mp hp
    obtain ⟨-, node', hnode'⟩ := realPath?_eq_some.mp hq
    have hsame : some node = some node' :=
      (resolve_eq_ok_iff.mp hnode).2.symm.trans (resolve_eq_ok_iff.mp hnode').2
    rw [modeAt?, modeAt?, find?, find?, hnode, hnode', Option.some.inj hsame]

/-- Bytes do not matter. -/
theorem clearance_of_outline {d d' : Disk} (h : d'.outline = d.outline)
    (htag : d'.draftTag = d.draftTag) (p : Path) : d'.clearance p = d.clearance p := by
  have hsite : d'.site p = d.site p := by rw [← site_outline, h, site_outline]
  have hmode : d'.modeAt? p = d.modeAt? p := by rw [← modeAt?_outline, h, modeAt?_outline]
  have hwork : d'.workDir = d.workDir := show d'.outline.workDir = d.outline.workDir by rw [h]
  have hpermit : d'.permit = d.permit := by
    have hrefusals : d'.refusals = d.refusals := show d'.outline.refusals = d.outline.refusals by
      rw [h]
    funext step place
    rw [permit, permit, hrefusals]
  have hdir : ∀ loc, (d'.node? loc).any Node.isDir = (d.node? loc).any Node.isDir := by
    intro loc
    have hany : ∀ e : Disk, (e.outline.node? loc).any Node.isDir = (e.node? loc).any Node.isDir := by
      intro e
      rw [node?_outline]
      cases e.node? loc with
      | none => rfl
      | some node => cases node <;> rfl
    rw [← hany, h, hany]
  have hpath : ∀ folder, d'.draftPath folder = d.draftPath folder := by
    intro folder
    rw [draftPath, draftPath, draftStem, draftStem, hwork, htag]
  simp only [clearance, draftCheck, settleCheck, modeCheck, renameCheck, hsite, hmode, hpermit,
    hdir, hpath]

/-! ## Files -/

theorem readBytes_of_file {d : Disk} {p : Path} {loc : Location} {mode : Nat} {bytes : List UInt8}
    (h : d.resolve p = .ok (loc, .file mode bytes)) : d.readBytes p = .ok bytes := by
  unfold readBytes
  rw [h]
  rfl

theorem readText_of_file {d : Disk} {p : Path} {loc : Location} {mode : Nat} {t : Text}
    (h : d.resolve p = .ok (loc, .file mode (Utf8.encode t))) : d.readText p = .ok t := by
  unfold readText
  simp only [readBytes_of_file h, Utf8.decode_encode]

theorem newMode_of_file {d : Disk} {p : Path} {loc : Location} {mode : Nat} {bytes : List UInt8}
    (h : d.resolve p = .ok (loc, .file mode bytes)) : d.newMode p = mode := by
  rw [newMode, modeAt?, find?, h]
  rfl

/-- What is replaced is what has the real path. -/
theorem place_of_realPath {d : Disk} {p : Path} {loc place : Location}
    (h : d.realPath? p = some loc) (hclear : d.clearance p = .ok place) : loc = place := by
  have hplace := (clearance_eq_ok_iff.mp hclear).place
  rw [site, h] at hplace
  exact Except.ok.inj hplace

end Disk

/-! ## The letters of a draft -/

theorem bounds_of_isAlphanum {c : Char} (h : c.isAlphanum = true) :
    0x30 ≤ c.toNat ∧ c.toNat < 0x7f ∧ c.toNat ≠ 0x5c := by
  have hval : c.toNat = c.val.toNat := rfl
  change ((decide (c.val ≥ 'A'.val ∧ c.val ≤ 'Z'.val)
    || decide (c.val ≥ 'a'.val) && decide (c.val ≤ 'z'.val))
    || decide (c.val ≥ '0'.val) && decide (c.val ≤ '9'.val)) = true at h
  simp only [Bool.or_eq_true, Bool.and_eq_true, decide_eq_true_eq, ge_iff_le,
    UInt32.le_iff_toNat_le] at h
  have hbounds : 'A'.val.toNat = 0x41 ∧ 'Z'.val.toNat = 0x5a ∧ 'a'.val.toNat = 0x61
      ∧ 'z'.val.toNat = 0x7a ∧ '0'.val.toNat = 0x30 ∧ '9'.val.toNat = 0x39 := by decide
  omega

namespace DraftTag

variable (tag : DraftTag)

theorem bounds_of_mem {c : Char} (h : c ∈ tag.letters) :
    0x30 ≤ c.toNat ∧ c.toNat < 0x7f ∧ c.toNat ≠ 0x5c :=
  bounds_of_isAlphanum (List.all_eq_true.mp tag.plain c h)

theorem byteSize_letters : Text.byteSize tag.letters = 6 := by
  have hsize : ∀ t : Text, (∀ c ∈ t, c.toNat < 0x7f) → Text.byteSize t = t.length := by
    intro t ht
    induction t with
    | nil => rfl
    | cons c t ih =>
        have hc : c.utf8Size = 1 := by
          have hlow : c.val ≤ 0x7f := UInt32.le_iff_toNat_le.mpr (Nat.le_of_lt (ht c List.mem_cons_self))
          exact if_pos hlow
        rw [Text.byteSize, hc, ih fun c hc => ht c (List.mem_cons_of_mem _ hc), List.length_cons,
          Nat.add_comm]
  rw [hsize _ fun c hc => (tag.bounds_of_mem hc).2.1, tag.length]

theorem hasNul_letters : Path.hasNul tag.letters = false := by
  rw [Path.hasNul, List.any_eq_false]
  intro c hc hnul
  rw [beq_iff_eq.mp hnul] at hc
  exact absurd (tag.bounds_of_mem hc).1 (by decide)

theorem quotedChar_letters : tag.letters.flatMap Path.quotedChar = tag.letters := by
  have hplain : ∀ c ∈ tag.letters, Path.quotedChar c = [c] := by
    intro c hc
    obtain ⟨hlow, hhigh, hslash⟩ := tag.bounds_of_mem hc
    have hne : ∀ c' : Char, c'.toNat < 0x30 ∨ c'.toNat = 0x5c → c ≠ c' := by
      rintro c' h rfl
      omega
    have hcontrol : ¬ (decide (c.toNat < 0x20)
        || decide (0x7f ≤ c.toNat) && decide (c.toNat < 0xa0)) = true := by
      simp
      omega
    rw [Path.quotedChar, if_neg (by simp [hne]), if_neg (hne _ (by decide)),
      if_neg (hne _ (by decide)), if_neg (hne _ (by decide)), if_neg (hne _ (by decide)),
      if_neg hcontrol]
  rw [List.flatMap_def, List.map_congr_left hplain, ← List.flatMap_def, List.flatMap_singleton']

end DraftTag

namespace Disk

/-- The disk with other letters for its drafts. -/
def withTag (d : Disk) (tag : DraftTag) : Disk := { d with draftTag := tag }

/-- All letters are fine. -/
theorem checkPath_draftPath_withTag (d : Disk) (tag : DraftTag) (folder : Path) :
    checkPath ((d.withTag tag).draftPath folder) = checkPath (d.draftPath folder) := by
  have hpath : ∀ tag : DraftTag, checkPath (d.draftStem folder ++ tag.letters)
      = if (d.draftStem folder).hasNul then .error .nulInPath
        else if Path.maxPathBytes < Text.byteSize (d.draftStem folder) + 6 then .error .nameTooLong
        else .ok () := by
    intro tag
    have hempty : (d.draftStem folder ++ tag.letters).isEmpty = false := by
      have := tag.length
      cases hletters : tag.letters with
      | nil => simp [hletters] at this
      | cons c t => cases d.draftStem folder <;> rfl
    have hnul : Path.hasNul (d.draftStem folder ++ tag.letters)
        = Path.hasNul (d.draftStem folder) := by
      have := tag.hasNul_letters
      rw [Path.hasNul] at this ⊢
      rw [List.any_append, this, Bool.or_false]
      rfl
    rw [checkPath, hempty, hnul, Path.isLong, Text.byteSize_append, tag.byteSize_letters]
    simp
  exact (hpath tag).trans (hpath d.draftTag).symm

theorem modeAt?_withTag (d : Disk) (tag : DraftTag) (p : Path) :
    (d.withTag tag).modeAt? p = d.modeAt? p := by
  rw [← modeAt?_outline, ← modeAt?_outline d]
  rfl

theorem newMode_withTag (d : Disk) (tag : DraftTag) (p : Path) :
    (d.withTag tag).newMode p = d.newMode p := by
  rw [newMode, newMode, modeAt?_withTag]

/-- With other letters the clearance is the same, but for the name of the
draft. -/
theorem clearance_withTag (d : Disk) (tag : DraftTag) (p : Path) :
    (d.withTag tag).clearance p = d.clearance p
      ∨ ∃ fault stem, d.clearance p = .error (.temporary fault (stem ++ d.draftTag.letters))
        ∧ (d.withTag tag).clearance p = .error (.temporary fault (stem ++ tag.letters)) := by
  have hsite : (d.withTag tag).site p = d.site p := by
    rw [← site_outline, ← site_outline d]
    rfl
  have hdraft : (d.withTag tag).draftCheck (d.site p) = d.draftCheck (d.site p) := by
    rw [draftCheck, draftCheck, checkPath_draftPath_withTag]
    rfl
  have hsettle : (d.withTag tag).settleCheck = d.settleCheck := rfl
  rw [clearance, clearance, hsite, modeAt?_withTag, hdraft, hsettle]
  cases d.draftCheck (d.site p) with
  | error fault => exact .inr ⟨fault, d.draftStem (d.site p).folder, rfl, rfl⟩
  | ok home => exact .inl rfl

end Disk

end Upkeep
