import Upkeep.Proofs.Layout

/-!
# What extraction yields

The imports that can be extracted are exactly the texts of `IsImport`:
something within a line, bare, and free of interpolations.

That an import is never empty rests on the order of the two steps. The
line is trimmed first, so it does not end in a blank. The keyword does,
and so something else stands behind it (`exists_getLast?_rest`).

Conversely, an import with the keyword before it is a line that yields
this import (`importOf?_keyword`). So a list of imports is extracted from
the text that writes it down, and what was extracted once is extracted
again (`literalImports_image`).
-/

namespace Upkeep

/-- The texts that can be extracted. -/
structure IsImport (x : Text) : Prop where
  ne_nil : x ≠ []
  bare : x.IsBare
  oneLine : '\n' ∉ x
  literal : ¬ interpolationMark <:+: x

theorem isImport_iff {x : Text} :
    IsImport x ↔ x ≠ [] ∧ x.IsBare ∧ '\n' ∉ x ∧ ¬ interpolationMark <:+: x :=
  ⟨fun h => ⟨h.ne_nil, h.bare, h.oneLine, h.literal⟩, fun ⟨h₁, h₂, h₃, h₄⟩ => ⟨h₁, h₂, h₃, h₄⟩⟩

instance (x : Text) : Decidable (IsImport x) := decidable_of_iff _ isImport_iff.symm

/-- The text that writes imports down, one to a line. -/
def writeImports (xs : List Text) : Text := Text.ofLines (xs.map (importKeyword ++ ·))

/-! ## One line -/

theorem importOf?_eq_some_iff {line x : Text} :
    importOf? line = some x ↔ ¬ interpolationMark <:+: line
      ∧ ∃ rest, Text.trim line = importKeyword ++ rest ∧ Text.trim rest = x := by
  rw [importOf?]
  split
  · rename_i hmark
    simp [Text.contains_iff.mp hmark]
  · rename_i hmark
    rw [Text.contains_iff] at hmark
    simp [hmark, Option.map_eq_some_iff, Text.dropFront?_eq_some_iff]

/-- The keyword ends in a blank and a trimmed line does not. -/
theorem exists_getLast?_rest {line rest : Text} (h : Text.trim line = importKeyword ++ rest) :
    ∃ c, rest.getLast? = some c ∧ Text.isBlank c = false := by
  have hlast := (Text.isBare_trim line).last
  rw [h, List.getLast?_append] at hlast
  cases hrest : rest.getLast? with
  | none =>
      rw [hrest] at hlast
      exact absurd (hlast ' ' (by decide)) (by decide)
  | some c =>
      rw [hrest] at hlast
      exact ⟨c, rfl, hlast c rfl⟩

theorem isImport_of_importOf? {line x : Text} (hline : '\n' ∉ line)
    (h : importOf? line = some x) : IsImport x := by
  obtain ⟨hmark, rest, htrim, rfl⟩ := importOf?_eq_some_iff.mp h
  obtain ⟨c, hc, hblank⟩ := exists_getLast?_rest htrim
  have hpart : Text.trim rest <:+: line := by
    have hrest : rest <:+: Text.trim line := by
      rw [htrim]
      exact List.infix_append_right
    exact (Text.trim_isInfix rest).trans (hrest.trans (Text.trim_isInfix line))
  exact {
    ne_nil := Text.trim_ne_nil (List.mem_of_getLast? hc) hblank
    bare := Text.isBare_trim rest
    oneLine := fun hmem => hline (hpart.subset hmem)
    literal := fun hfound => hmark (hfound.trans hpart) }

theorem importOf?_keyword {x : Text} (h : IsImport x) : importOf? (importKeyword ++ x) = some x := by
  have hbare : (importKeyword ++ x).IsBare := by
    refine ⟨fun c hc => ?_, fun c hc => ?_⟩
    · obtain rfl : 'i' = c := Option.some.inj hc
      decide
    · obtain ⟨last, hlast⟩ := Option.ne_none_iff_exists'.mp (mt List.getLast?_eq_none_iff.mp h.ne_nil)
      rw [List.getLast?_append, hlast, Option.some_or] at hc
      exact h.bare.last c (hlast.trans hc)
  have hapart : ∀ c ∈ importKeyword, c ∉ interpolationMark := by
    have hall : importKeyword.all (!List.contains interpolationMark ·) = true := by decide
    simpa using hall
  have hmark : ¬ interpolationMark <:+: importKeyword ++ x := by
    rw [Text.infix_append_iff_right mark_ne_nil hapart]
    exact h.literal
  exact importOf?_eq_some_iff.mpr ⟨hmark, x, Text.trim_of_isBare hbare, Text.trim_of_isBare h.bare⟩

/-! ## Whole texts -/

theorem isImport_of_mem {t x : Text} (h : x ∈ literalImports t) : IsImport x := by
  rw [literalImports_eq, List.mem_filterMap] at h
  obtain ⟨line, hline, hx⟩ := h
  exact isImport_of_importOf? (Text.not_mem_of_mem_cut hline) hx

theorem literalImports_writeImports {xs : List Text} (h : ∀ x ∈ xs, IsImport x) :
    literalImports (writeImports xs) = xs := by
  have hlines : ∀ l ∈ xs.map (importKeyword ++ ·), '\n' ∉ l := by
    intro l hl hbreak
    obtain ⟨x, hx, rfl⟩ := List.mem_map.mp hl
    rcases List.mem_append.mp hbreak with hkeyword | hrest
    · exact absurd hkeyword (by decide)
    · exact (h x hx).oneLine hrest
  have hempty : List.filterMap importOf? [[]] = [] := by decide
  have hread : xs.filterMap (importOf? ∘ (importKeyword ++ ·)) = xs.filterMap some :=
    List.filterMap_congr fun x hx => importOf?_keyword (h x hx)
  rw [literalImports_eq, writeImports, Text.cut_ofLines hlines, List.filterMap_append, hempty,
    List.append_nil, List.filterMap_map, hread, List.filterMap_some]

/-! ## Templates -/

/-- A line that writes an import out: no interpolation is opened on it,
and between its blanks it is the keyword with something behind. -/
def IsImportLine (line : Text) : Prop :=
  ¬ interpolationMark <:+: line ∧ ∃ rest, rest ≠ [] ∧ Text.trim line = importKeyword ++ rest

theorem literalImports_eq_nil_iff {t : Text} :
    literalImports t = [] ↔ ∀ line ∈ Text.lines t, ¬ IsImportLine line := by
  rw [literalImports, List.filterMap_eq_nil_iff]
  refine forall₂_congr fun line _ => ?_
  rw [Option.eq_none_iff_forall_ne_some]
  constructor
  · rintro hnone ⟨hmark, rest, -, htrim⟩
    exact hnone _ (importOf?_eq_some_iff.mpr ⟨hmark, rest, htrim, rfl⟩)
  · intro hnot x hx
    obtain ⟨hmark, rest, htrim, -⟩ := importOf?_eq_some_iff.mp hx
    obtain ⟨c, hc, -⟩ := exists_getLast?_rest htrim
    exact hnot ⟨hmark, rest, List.ne_nil_of_mem (List.mem_of_getLast? hc), htrim⟩

namespace ImportStatus

theorem ofRead_eq_literal_iff {read : Except Failure Text} {xs : List Text} :
    ofRead read = .literal xs ↔ xs ≠ [] ∧ ∃ t, read = .ok t ∧ literalImports t = xs := by
  cases read with
  | error failure => cases failure <;> simp [ofRead]
  | ok t =>
      cases himports : literalImports t with
      | nil =>
          simp only [ofRead, himports, reduceCtorEq, false_iff]
          rintro ⟨hne, t', ht, rfl⟩
          obtain rfl := Except.ok.inj ht
          exact hne himports
      | cons x rest =>
          simp only [ofRead, himports, literal.injEq, Except.ok.injEq, exists_eq_left',
            iff_and_self]
          rintro rfl
          exact List.cons_ne_nil x rest

theorem ofRead_eq_dynamicOnly_iff {read : Except Failure Text} :
    ofRead read = .dynamicOnly ↔ ∃ t, read = .ok t ∧ literalImports t = [] := by
  cases read with
  | error failure => cases failure <;> simp [ofRead]
  | ok t => cases himports : literalImports t <;> simp [ofRead, himports]

end ImportStatus

/-- The record tells the imports of the mapped template. -/
structure ImportRecord.Tells (d : Disk) (dir : Path) (m : Mapping) (r : ImportRecord) : Prop where
  generator : r.generator = m.generator
  template : r.template = m.template
  literal : ∀ xs, r.status = .literal xs ↔
    xs ≠ [] ∧ ∃ t, d.loadText (dir.join m.template) = .ok t ∧ literalImports t = xs
  clean : ∀ xs, r.status = .literal xs → xs ≠ [] ∧ ∀ x ∈ xs, IsImport x
  dynamicOnly : r.status = .dynamicOnly ↔
    ∃ t, d.loadText (dir.join m.template) = .ok t ∧ ∀ line ∈ Text.lines t, ¬ IsImportLine line

theorem tells_analyzeTemplates (d : Disk) (dir : Path) (mappings : List Mapping) :
    List.Forall₂ (ImportRecord.Tells d dir) mappings (analyzeTemplates d dir mappings) := by
  rw [analyzeTemplates, List.forall₂_map_right_iff, List.forall₂_same]
  intro m _
  refine ⟨rfl, rfl, fun xs => ImportStatus.ofRead_eq_literal_iff, fun xs hstatus => ?_, ?_⟩
  · obtain ⟨hne, t, -, rfl⟩ := ImportStatus.ofRead_eq_literal_iff.mp hstatus
    exact ⟨hne, fun x => isImport_of_mem⟩
  · rw [ImportStatus.ofRead_eq_dynamicOnly_iff]
    simp only [literalImports_eq_nil_iff]

/-- **What extraction yields.** Everything extracted is an import, and is
extracted again from the text that writes it down; so is every list of
imports. A template is therefore said to have literal imports only with a
list of such, which is not empty, and is said to have dynamic ones only
if it can be read and no line of it writes an import out. -/
theorem literalImports_image :
    (∀ t, ∀ x ∈ literalImports t, IsImport x)
      ∧ (∀ t, literalImports (writeImports (literalImports t)) = literalImports t)
      ∧ (∀ xs, (∀ x ∈ xs, IsImport x) → literalImports (writeImports xs) = xs)
      ∧ ∀ d dir mappings,
        List.Forall₂ (ImportRecord.Tells d dir) mappings (analyzeTemplates d dir mappings) :=
  ⟨fun _ _ => isImport_of_mem, fun _ => literalImports_writeImports fun _ => isImport_of_mem,
    fun _ => literalImports_writeImports, tells_analyzeTemplates⟩

/-- A carriage return or a single brace within an import is part of it, and
so is the keyword if it comes once more. -/
theorem literalImports_image_odd :
    (∀ x ∈ ["a\rb".toList, "import \x7bc".toList], IsImport x)
      ∧ writeImports ["a\rb".toList, "import \x7bc".toList]
        = "import a\rb\nimport import \x7bc\n".toList
      ∧ literalImports "import a\rb\nimport import \x7bc\n".toList
        = ["a\rb".toList, "import \x7bc".toList] := by
  have himports : ∀ x ∈ ["a\rb".toList, "import \x7bc".toList], IsImport x := by decide
  exact ⟨himports, rfl, literalImports_image.2.2.1 _ himports⟩

end Upkeep
