import Mathlib.Data.List.Nodup
import Upkeep.Proofs.Extension
import Upkeep.Proofs.Line
import Upkeep.Proofs.Route

/-!
# What is listed

`Disk.listFiles` takes the names of a directory in order and keeps those
with the right extension whose path leads to a file. Three things have to
be seen.

Names are ordered by code points, which is the order of their bytes: the
lead byte of a longer form is larger, and forms of the same length spell
the code point digit by digit (`Utf8.encodeChar_lt`). No name stands twice
in a directory, so the names listed are strictly increasing.

A name is put behind the path of the directory, and the path is followed
from its start once more. It passes through the directory again
(`locate_join`), so it goes on at the entry of that name, with the links
that the way to the directory has left.

What the entry is then decides: a file is listed, a directory never is,
and a link is listed if it leads to a file.
-/

namespace Upkeep

/-! ## The order of names -/

namespace Utf8

/-- Numbers are compared by their last digit in base 64 if the others
agree. -/
theorem lt_iff_digits (m n : Nat) :
    m < n ↔ m / 64 < n / 64 ∨ m / 64 = n / 64 ∧ m % 64 < n % 64 := by
  omega

theorem toNat_ofNat {n : Nat} (h : n < 256) : (UInt8.ofNat n).toNat = n := by
  rw [UInt8.toNat_ofNat']
  exact Nat.mod_eq_of_lt h

/-- **The bytes of characters are ordered** like the characters, whatever
follows. -/
theorem encodeChar_lt {a b : Char} (h : a.toNat < b.toNat) (x y : List UInt8) :
    String.utf8EncodeChar a ++ x < String.utf8EncodeChar b ++ y := by
  have hvalid : b.val.toNat < 0x110000 := by
    have hb := b.valid
    simp only [UInt32.isValidChar, Nat.isValidChar] at hb
    omega
  change a.val.toNat < b.val.toNat at h
  unfold String.utf8EncodeChar
  dsimp only
  generalize a.val.toNat = m at *
  generalize b.val.toNat = n at *
  have hlast := lt_iff_digits m n
  have hthird := lt_iff_digits (m / 64) (n / 64)
  have hsecond := lt_iff_digits (m / 4096) (n / 4096)
  simp only [Nat.div_div_eq_div_mul] at hthird hsecond
  have hm : m / 262144 % 8 = m / 262144 := by omega
  have hn : n / 262144 % 8 = n / 262144 := by omega
  -- one case for each pair of lengths; the first bytes differ unless these are the same
  split_ifs <;>
    simp (disch := omega) only [List.cons_append, List.nil_append, List.cons_lt_cons_iff,
      UInt8.lt_iff_toNat_lt, ← UInt8.toNat_inj, toNat_ofNat, hm, hn] <;>
    omega

end Utf8

namespace Path

theorem nameLe_total (a b : Name) : (nameLe a b || nameLe b a) = true := by
  induction a generalizing b with
  | nil => rfl
  | cons x s ih =>
      cases b with
      | nil => rfl
      | cons y t =>
          have htail := ih t
          rcases Nat.lt_trichotomy x.toNat y.toNat with hlt | heq | hgt
          · simp [nameLe, hlt]
          · obtain rfl : x = y := Char.toNat_inj.mp heq
            simpa [nameLe] using htail
          · simp [nameLe, hgt]

theorem nameLe_trans (a b c : Name) (hab : nameLe a b = true) (hbc : nameLe b c = true) :
    nameLe a c = true := by
  induction a generalizing b c with
  | nil => rfl
  | cons x s ih =>
      cases b with
      | nil => simp [nameLe] at hab
      | cons y t =>
          cases c with
          | nil => simp [nameLe] at hbc
          | cons z u =>
              simp only [nameLe, Bool.or_eq_true, Bool.and_eq_true, decide_eq_true_eq,
                beq_iff_eq] at hab hbc ⊢
              rcases hab with hxy | ⟨rfl, hst⟩
              · rcases hbc with hyz | ⟨rfl, -⟩
                · exact .inl (Nat.lt_trans hxy hyz)
                · exact .inl hxy
              · rcases hbc with hyz | ⟨rfl, htu⟩
                · exact .inl hyz
                · exact .inr ⟨rfl, ih t u hst htu⟩

/-- The order of names is that of their bytes. -/
theorem encode_lt_of_nameLe {a b : Name} (h : nameLe a b = true) (hne : a ≠ b) :
    Utf8.encode a < Utf8.encode b := by
  induction a generalizing b with
  | nil =>
      cases b with
      | nil => exact absurd rfl hne
      | cons y t =>
          have hpos : Utf8.encode (y :: t) ≠ [] := by
            simp [Utf8.encode]
          obtain ⟨x, bytes, hcons⟩ := List.exists_cons_of_ne_nil hpos
          rw [hcons]
          exact List.nil_lt_cons x bytes
  | cons x s ih =>
      cases b with
      | nil => simp [nameLe] at h
      | cons y t =>
          simp only [nameLe, Bool.or_eq_true, Bool.and_eq_true, decide_eq_true_eq,
            beq_iff_eq] at h
          rcases h with hlt | ⟨rfl, hst⟩
          · exact Utf8.encodeChar_lt hlt _ _
          · exact List.append_left_lt (ih hst fun heq => hne (by rw [heq]))

end Path

/-! ## Paths into a directory -/

namespace Path

/-- A name that an entry of a directory can have. -/
def IsProper (n : Name) : Prop :=
  n ≠ [] ∧ '/' ∉ n ∧ nul ∉ n ∧ Disk.IsPlain n

instance (n : Name) : Decidable (IsProper n) := by
  unfold IsProper Disk.IsPlain
  infer_instance

/-- The name is a stem and, behind its last dot, the extension. -/
def HasExtension (n : Name) (ext : Text) : Prop :=
  '.' ∉ ext ∧ ∃ stem, stem ≠ [] ∧ n = stem ++ '.' :: ext

theorem names_append_cons (a b : Path) : names (a ++ '/' :: b) = names a ++ names b := by
  rw [names, Text.cut_append_cons, List.filter_append]
  rfl

theorem names_of_isProper {n : Name} (h : IsProper n) : names n = [n] := by
  rw [names, Text.cut_of_not_mem h.2.1]
  simp [h.1]

section Join

variable {dir : Path} {n : Name}

theorem isAbsolute_of_isProper (h : IsProper n) : isAbsolute n = false := by
  obtain ⟨hne, hslash, -⟩ := h
  obtain ⟨c, rest, rfl⟩ := List.exists_cons_of_ne_nil hne
  obtain ⟨hc, -⟩ := not_or.mp (mt List.mem_cons.mpr hslash)
  simpa [isAbsolute] using Ne.symm hc

/-- A name behind the path of a directory: a slash stands between them. -/
theorem exists_join (hdir : dir ≠ []) (h : IsProper n) :
    ∃ front, dir.join n = front ++ '/' :: n ∧ (dir = front ∨ dir = front ++ ['/']) := by
  have hempty : dir.isEmpty = false := by simpa using hdir
  cases hslash : dir.endsInSlash with
  | false =>
      refine ⟨dir, ?_, .inl rfl⟩
      simp [join, isAbsolute_of_isProper h, hempty, hslash]
  | true =>
      have hlast : dir.getLast? = some '/' := by simpa [endsInSlash] using hslash
      have hcut := List.dropLast_append_getLast? '/' hlast
      refine ⟨dir.dropLast, ?_, .inr hcut.symm⟩
      have hjoin : dir.join n = dir ++ n := by
        simp [join, isAbsolute_of_isProper h, hslash]
      rw [hjoin, ← List.singleton_append, ← List.append_assoc, hcut]

theorem steps_join (hdir : dir ≠ []) (h : IsProper n) : (dir.join n).steps = dir.names ++ [n] := by
  obtain ⟨front, hjoin, hfront⟩ := exists_join hdir h
  have hnames : dir.names = front.names := by
    rcases hfront with rfl | rfl
    · rfl
    · rw [names_append_cons]
      exact List.append_nil _
  have hend : (dir.join n).endsInSlash = false := by
    obtain ⟨last, hlast⟩ := Option.ne_none_iff_exists'.mp (mt List.getLast?_eq_none_iff.mp h.1)
    have hmem := List.mem_of_getLast? hlast
    have hne : last ≠ '/' := fun heq => h.2.1 (heq ▸ hmem)
    rw [endsInSlash, hjoin, List.getLast?_append, List.getLast?_cons, hlast]
    simpa using hne
  rw [steps, hend, hjoin, names_append_cons, names_of_isProper h, hnames]
  rfl

theorem isAbsolute_join (hdir : dir ≠ []) (h : IsProper n) :
    (dir.join n).isAbsolute = dir.isAbsolute := by
  obtain ⟨c, rest, rfl⟩ := List.exists_cons_of_ne_nil hdir
  unfold join
  rw [isAbsolute_of_isProper h]
  split
  · contradiction
  · split <;> rfl

theorem hasNul_join (h : IsProper n) : (dir.join n).hasNul = dir.hasNul := by
  have hnone : n.any (· == nul) = false := by
    rw [List.any_eq_false]
    intro c hc hnul
    rw [beq_iff_eq] at hnul
    exact h.2.2.1 (hnul ▸ hc)
  have hslash : ('/' == nul) = false := by decide
  unfold join hasNul
  rw [isAbsolute_of_isProper h]
  split
  · contradiction
  · split <;> simp [hnone, hslash]

theorem join_injective {m : Name} (hm : IsProper m) (h : IsProper n)
    (heq : dir.join m = dir.join n) : m = n := by
  unfold join at heq
  rw [isAbsolute_of_isProper h, isAbsolute_of_isProper hm] at heq
  split at heq
  · contradiction
  · split at heq
    · exact List.append_cancel_left heq
    · exact (List.cons.inj (List.append_cancel_left heq)).2

end Join

end Path

namespace Disk

/-- Every entry of the disk has a proper name. -/
def HasProperNames (d : Disk) : Prop := ∀ e ∈ d.nodes, ∀ n ∈ e.1, Path.IsProper n

instance (d : Disk) : Decidable d.HasProperNames := by
  unfold HasProperNames
  infer_instance

theorem HasProperNames.isProper {d : Disk} (hd : d.HasProperNames) {loc : Location} {n : Name}
    (h : (d.node? (loc ++ [n])).isSome = true) : Path.IsProper n := by
  rw [node?, if_neg (by simp), List.lookup_isSome_iff] at h
  obtain ⟨e, he, hkey⟩ := h
  refine hd e he n ?_
  rw [← beq_iff_eq.mp hkey]
  simp

theorem resolve_cases {d : Disk} {p : Path} {loc : Location} {node : Node}
    (h : d.resolve p = .ok (loc, node)) :
    checkPath p = .ok () ∧ d.walk maxLinks (origin d.workDir p) p.steps = .ok loc
      ∧ d.node? loc = some node := by
  obtain ⟨hloc, hnode⟩ := resolve_eq_ok_iff.mp h
  unfold locate at hloc
  cases hcheck : checkPath p with
  | error fault => simp [hcheck, bind, Except.bind] at hloc
  | ok =>
      rw [hcheck] at hloc
      exact ⟨rfl, hloc, hnode⟩

/-- A walk to a directory gets there step by step. -/
theorem exists_steps_of_isFolder {d : Disk} {folder : Location} (hfolder : d.IsFolder folder)
    (s : Stage) (h : d.walk s.links s.here s.ahead = .ok folder) :
    ∃ left, d.Steps s ⟨left, folder, []⟩ := by
  induction s using stage_induction d with
  | _ s ih =>
      obtain ⟨links, here, ahead⟩ := s
      cases ahead with
      | nil =>
          obtain rfl : here = folder := Except.ok.inj ((walk_nil links).symm.trans h)
          exact ⟨links, .refl⟩
      | cons n rest =>
          rcases walk_cases d links here n rest with
            ⟨left, cost, there, names, rfl, hmove⟩ | ⟨rfl, hn, hleaf⟩ | ⟨fault, hfault⟩
          · have hstep : d.Step ⟨left + cost, here, n :: rest⟩ ⟨left, there, names ++ rest⟩ :=
              .move hmove
            rw [walk_of_move hmove] at h
            obtain ⟨links, hsteps⟩ := ih _ hstep h
            exact ⟨links, .head hstep hsteps⟩
          · obtain rfl := Except.ok.inj ((walk_last hn hleaf links).symm.trans h)
            obtain ⟨mode, hdir⟩ := hfolder
            rcases hleaf with hnone | ⟨_, _, hfile⟩
            · rw [hdir] at hnone
              cases hnone
            · rw [hdir] at hfile
              cases hfile
          · exact absurd (h.symm.trans hfault) (by simp)

/-- The path into a directory passes through the directory, and goes on at
the entry of its last name. -/
theorem locate_join {d : Disk} {dir : Path} {loc : Location} {mode : Nat}
    (h : d.resolve dir = .ok (loc, .dir mode)) :
    ∃ left, ∀ n, Path.IsProper n → (dir.join n).isLong = false →
      d.locate (dir.join n) = d.walk left loc [n] := by
  obtain ⟨hcheck, hwalk, hnode⟩ := resolve_cases h
  have hnul : dir.hasNul = false := by
    cases hnul : dir.hasNul with
    | false => rfl
    | true => simp [checkPath, hnul] at hcheck
  have hdir : dir ≠ [] := by
    rintro rfl
    simp [checkPath, hnul] at hcheck
  obtain ⟨left, hsteps⟩ : ∃ left, d.Steps ⟨maxLinks, origin d.workDir dir, dir.names⟩
      ⟨left, loc, []⟩ := by
    unfold Path.steps at hwalk
    split at hwalk
    · exact exists_steps_of_walk ⟨maxLinks, origin d.workDir dir, dir.names⟩ hwalk
    · exact exists_steps_of_isFolder ⟨mode, hnode⟩ ⟨maxLinks, origin d.workDir dir, dir.names⟩ hwalk
  refine ⟨left, ?_⟩
  intro n hn hshort
  have hpath : checkPath (dir.join n) = .ok () := by
    obtain ⟨front, hjoin, -⟩ := Path.exists_join hdir hn
    have hne : (dir.join n).isEmpty = false := by simp [hjoin]
    simp [checkPath, Path.hasNul_join hn, hnul, hne, hshort]
  have horigin : origin d.workDir (dir.join n) = origin d.workDir dir := by
    unfold origin
    rw [Path.isAbsolute_join hdir hn]
  have hwhole : d.locate (dir.join n)
      = d.walk maxLinks (origin d.workDir dir) (dir.names ++ [n]) := by
    rw [locate, hpath, horigin, Path.steps_join hdir hn]
    rfl
  rw [hwhole]
  exact walk_of_steps (steps_append hsteps [n])

/-! ## The names listed -/

theorem nodup_namesIn (d : Disk) (loc : Location) : (d.namesIn loc).Nodup := by
  have hkeys : d.namesIn loc = (d.nodes.map (·.1)).filterMap fun l =>
      if l.dropLast = loc then l.getLast? else none := by
    rw [List.filterMap_map]
    rfl
  have hkey : ∀ (l : Location) (n : Name),
      n ∈ (if l.dropLast = loc then l.getLast? else none) → l = loc ++ [n] := by
    intro l n hn
    split at hn
    · rename_i hloc
      rw [← hloc]
      exact (List.dropLast_append_getLast? n hn).symm
    · cases hn
  rw [hkeys]
  refine List.Nodup.filterMap ?_ d.distinct
  intro l l' n hn hn'
  rw [hkey l n hn, hkey l' n hn']

/-- The names of a directory are taken in the order of their bytes. -/
theorem pairwise_sortedNames (d : Disk) (loc : Location) :
    (d.sortedNames loc).Pairwise fun a b => Utf8.encode a < Utf8.encode b := by
  have hsorted : (d.sortedNames loc).Pairwise fun a b => Path.nameLe a b = true :=
    List.pairwise_mergeSort Path.nameLe_trans Path.nameLe_total (d.namesIn loc)
  have hdistinct : (d.sortedNames loc).Nodup :=
    (List.mergeSort_perm _ _).nodup_iff.mpr (d.nodup_namesIn loc)
  exact hsorted.imp₂ (fun a b hle hne => Path.encode_lt_of_nameLe hle hne) hdistinct

/-- Names in order are the sorted ones. -/
theorem sortedNames_eq_of_perm {d : Disk} {loc : Location} {names : List Name}
    (hperm : (d.namesIn loc).Perm names)
    (horder : names.Pairwise fun a b => Path.nameLe a b = true) : d.sortedNames loc = names := by
  have hsorted : (d.sortedNames loc).Pairwise fun a b => Path.nameLe a b = true :=
    List.pairwise_mergeSort Path.nameLe_trans Path.nameLe_total (d.namesIn loc)
  refine ((List.mergeSort_perm _ _).trans hperm).eq_of_pairwise ?_ hsorted horder
  intro a b _ _ hab hba
  by_contra hne
  exact List.lt_asymm (Path.encode_lt_of_nameLe hab hne)
    (Path.encode_lt_of_nameLe hba (Ne.symm hne))

/-- Seen from the directory at `loc`, the path leads to a file. -/
def LeadsToFile (d : Disk) (loc : Location) (p : Path) : Prop :=
  ∃ links file mode bytes, d.walk links (origin loc p) p.steps = .ok file
    ∧ d.node? file = some (.file mode bytes)

section Entry

variable {d : Disk} {dir : Path} {loc : Location} {dirMode : Nat} {n : Name}

theorem isLong_of_resolve {p : Path} {node : Node} (h : d.resolve p = .ok (loc, node)) :
    p.isLong = false := by
  have hcheck := (resolve_cases h).1
  unfold checkPath at hcheck
  cases hlong : p.isLong with
  | false => rfl
  | true =>
      rw [hlong] at hcheck
      split at hcheck
      · cases hcheck
      · split at hcheck
        · cases hcheck
        · cases hcheck

/-- The path of a file in a directory leads to that file. -/
theorem resolve_join_file (hdir : d.resolve dir = .ok (loc, .dir dirMode)) (hn : Path.IsProper n)
    (hshort : (dir.join n).isLong = false) {mode : Nat} {bytes : List UInt8}
    (hnode : d.node? (loc ++ [n]) = some (.file mode bytes)) :
    d.resolve (dir.join n) = .ok (loc ++ [n], .file mode bytes) := by
  obtain ⟨left, hlocate⟩ := locate_join hdir
  refine resolve_eq_ok_iff.mpr ⟨?_, hnode⟩
  rw [hlocate n hn hshort]
  exact walk_last hn.2.2.2 (.inr ⟨mode, bytes, hnode⟩) left

/-- What leads to a file from within a directory is not a directory, and if
it is a link then its target leads to a file. -/
theorem entry_of_resolve_join (hdir : d.resolve dir = .ok (loc, .dir dirMode))
    (hn : Path.IsProper n) {file : Location} {mode : Nat} {bytes : List UInt8}
    (h : d.resolve (dir.join n) = .ok (file, .file mode bytes)) :
    ¬ d.IsFolder (loc ++ [n]) ∧ ∀ target, d.node? (loc ++ [n]) = some (.link target) →
      d.LeadsToFile loc target := by
  obtain ⟨left, hlocate⟩ := locate_join hdir
  obtain ⟨hwalk, hfile⟩ := resolve_eq_ok_iff.mp h
  rw [hlocate n hn (isLong_of_resolve h)] at hwalk
  refine ⟨?_, ?_⟩
  · rintro ⟨m, hfolder⟩
    rw [show left = left + 0 from rfl, walk_of_move (.down hn.2.2.2 hfolder),
      List.append_nil, walk_nil] at hwalk
    obtain rfl := Except.ok.inj hwalk
    rw [hfolder] at hfile
    cases hfile
  · intro target hlink
    have hmove := Move.follow hn.2.2.2 hlink
    cases left with
    | zero =>
        rw [walk_of_costly hmove Nat.one_pos] at hwalk
        cases hwalk
    | succ left =>
        rw [walk_of_move hmove, List.append_nil] at hwalk
        exact ⟨left, file, mode, bytes, hwalk, hfile⟩

end Entry

theorem mem_sortedNames {d : Disk} {loc : Location} {n : Name} :
    n ∈ d.sortedNames loc ↔ (d.node? (loc ++ [n])).isSome = true := by
  rw [sortedNames, List.mem_mergeSort, mem_namesIn]

/-- The names are those that are to be listed of the directory `dir`, which
is at `loc`. -/
structure Lists (d : Disk) (dir : Path) (loc : Location) (ext : Text) (names : List Name) :
    Prop where
  ordered : names.Pairwise fun a b => Utf8.encode a < Utf8.encode b
  once : (names.map dir.join).Nodup
  exact : ∀ n, n ∈ names ↔ (d.node? (loc ++ [n])).isSome = true ∧ Path.HasExtension n ext
    ∧ ∃ file mode bytes, d.resolve (dir.join n) = .ok (file, .file mode bytes)
  /-- Every file of the directory is listed, unless no path is that long. -/
  files : ∀ n mode bytes, d.node? (loc ++ [n]) = some (.file mode bytes) →
    Path.HasExtension n ext → (dir.join n).isLong = false → n ∈ names
  /-- Nothing from further below is listed, no directory, and of the links
  those that lead to a file. -/
  direct : ∀ n ∈ names, '/' ∉ n ∧ ¬ d.IsFolder (loc ++ [n])
    ∧ ∀ target, d.node? (loc ++ [n]) = some (.link target) → d.LeadsToFile loc target

theorem exists_lists {d : Disk} (hd : d.HasProperNames) {dir : Path} {loc : Location}
    {dirMode : Nat} (hdir : d.resolve dir = .ok (loc, .dir dirMode)) (ext : Text) :
    ∃ names, d.listFiles dir ext = .ok (names.map dir.join) ∧ d.Lists dir loc ext names := by
  let named := (d.sortedNames loc).filter fun n => Path.extension? n == some ext
  have hexact : ∀ n, n ∈ named.filter (fun n => d.isFile (dir.join n)) ↔
      (d.node? (loc ++ [n])).isSome = true ∧ Path.HasExtension n ext
        ∧ ∃ file mode bytes, d.resolve (dir.join n) = .ok (file, .file mode bytes) := by
    intro n
    simp only [named, List.mem_filter, mem_sortedNames, beq_iff_eq, Path.extension?_eq_some_iff,
      isFile_iff, and_assoc, Path.HasExtension]
  have hordered : (named.filter fun n => d.isFile (dir.join n)).Pairwise
      fun a b => Utf8.encode a < Utf8.encode b :=
    ((d.pairwise_sortedNames loc).filter _).filter _
  refine ⟨named.filter fun n => d.isFile (dir.join n), ?_, hordered, ?_, hexact, ?_, ?_⟩
  · simp only [listFiles, hdir, List.filter_map, named]
    rfl
  · refine List.pairwise_map.mpr (hordered.imp_of_mem ?_)
    intro a b ha hb hlt heq
    have hsame := Path.join_injective (hd.isProper ((hexact a).mp ha).1)
      (hd.isProper ((hexact b).mp hb).1) heq
    rw [hsame] at hlt
    exact List.lt_irrefl _ hlt
  · intro n mode bytes hnode hext hshort
    have hsome : (d.node? (loc ++ [n])).isSome = true := by rw [hnode]; rfl
    exact (hexact n).mpr ⟨hsome, hext, _, _, _,
      resolve_join_file hdir (hd.isProper hsome) hshort hnode⟩
  · intro n hn
    obtain ⟨hsome, -, file, mode, bytes, hfile⟩ := (hexact n).mp hn
    have hproper := hd.isProper hsome
    exact ⟨hproper.2.1, entry_of_resolve_join hdir hproper hfile⟩

/-- **What is listed** of a directory. A listing fails exactly if the path
does not lead to a directory. Otherwise it consists of the paths of the
entries that have the extension and lead to a file; each of them is there
once, in the order of the bytes of their names. -/
theorem listFiles_exact {d : Disk} (hd : d.HasProperNames) (dir : Path) (ext : Text) :
    ((∃ e, d.listFiles dir ext = .error e) ↔ ∀ loc mode, d.resolve dir ≠ .ok (loc, .dir mode))
      ∧ ∀ loc mode, d.resolve dir = .ok (loc, .dir mode) →
        ∃ names, d.listFiles dir ext = .ok (names.map dir.join)
          ∧ d.Lists dir loc ext names := by
  refine ⟨⟨?_, ?_⟩, fun loc mode hdir => exists_lists hd hdir ext⟩
  · rintro ⟨e, he⟩ loc mode hdir
    obtain ⟨names, hok, -⟩ := exists_lists hd hdir ext
    rw [hok] at he
    cases he
  · intro h
    refine ⟨⟨dir⟩, ?_⟩
    unfold listFiles
    split
    · rename_i loc mode hdir
      exact absurd hdir (h loc mode)
    · rfl

/-- A directory with all kinds of entries, in no order. -/
def shelf : Disk where
  nodes :=
    [(["t".toList], .dir Node.dirMode),
     (["t".toList, "é.peb".toList], .file Node.fileMode []),
     (["t".toList, "b.kt.peb".toList], .link "é.peb".toList),
     (["t".toList, "a.peb".toList], .file Node.fileMode []),
     (["t".toList, "gone.peb".toList], .link "nowhere".toList),
     (["t".toList, "up.peb".toList], .link "..".toList),
     (["t".toList, ".peb".toList], .file Node.fileMode []),
     (["t".toList, "nested.peb".toList], .dir Node.dirMode),
     (["t".toList, "nested.peb".toList, "c.peb".toList], .file Node.fileMode [])]
  drafts := []
  workDir := []
  distinct := by decide

theorem listFiles_exact_shelf :
    shelf.HasProperNames ∧ shelf.resolve "t".toList = .ok (["t".toList], .dir Node.dirMode)
      ∧ shelf.listFiles "t".toList "peb".toList
        = .ok ["t/a.peb".toList, "t/b.kt.peb".toList, "t/é.peb".toList]
      ∧ ∃ names, shelf.Lists "t".toList ["t".toList] "peb".toList names
        ∧ "b.kt.peb".toList ∈ names := by
  have hproper : shelf.HasProperNames := by decide +kernel
  have hdir : shelf.resolve "t".toList = .ok (["t".toList], .dir Node.dirMode) := rfl
  have hsorted : shelf.sortedNames ["t".toList]
      = [".peb".toList, "a.peb".toList, "b.kt.peb".toList, "gone.peb".toList, "nested.peb".toList,
        "up.peb".toList, "é.peb".toList] :=
    sortedNames_eq_of_perm (by decide) (by decide)
  have hlist : shelf.listFiles "t".toList "peb".toList
      = .ok ["t/a.peb".toList, "t/b.kt.peb".toList, "t/é.peb".toList] := by
    rw [listFiles, hdir]
    simp only [hsorted]
    rfl
  obtain ⟨names, -, hnames⟩ := (listFiles_exact hproper "t".toList "peb".toList).2 _ _ hdir
  refine ⟨hproper, hdir, hlist, names, hnames, (hnames.exact _).mpr ⟨rfl, ?_, ?_⟩⟩
  · exact ⟨by decide, "b.kt".toList, by decide, rfl⟩
  · exact ⟨["t".toList, "é.peb".toList], Node.fileMode, [], rfl⟩

end Disk

end Upkeep
