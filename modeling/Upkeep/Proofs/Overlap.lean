import Mathlib.Data.List.Infix
import Upkeep.Proofs.Guard

/-!
# Matches that stay clear of a text

When a replacement is put between its new neighbours, a match might reach
into it from either side, or lie around it. Whether a matcher rules this
out can be computed from its parts and the replacement alone.

A matched text is *spelled* by the parts of the matcher: it is a stretch
for each part, one after the other, and no stretch holds a text that is
banned from its part (`Spells`). If a spelled text reaches into `t` from
the left, then what it spells from there on is spelled by a *residual* of
the parts (`exists_residual`): one part is cut, the parts before it are
gone. `reads` then follows a list of parts through `t` and says whether
they may get to the end of `t`, or end within it. A gap gets through `t`
only if nothing that is banned from it occurs in `t`.

`Matcher.repels` collects these checks, and a matcher that repels `t` has
no match that shares a character with an occurrence of `t`
(`width?_le_of_repels`, `width?_eq_none_of_repels`).
-/

namespace Upkeep

/-! ## Spelled texts -/

namespace GuardedPiece

/-- The stretch holds none of the banned texts. -/
def admits (part : GuardedPiece) (x : Text) : Bool := !part.banned.any (Text.contains · x)

/-- A part of an admitted stretch is admitted. -/
theorem admits_of_part {part : GuardedPiece} {x y : Text} (hxy : x <:+: y)
    (h : part.admits y = true) : part.admits x = true := by
  simp only [admits, Bool.not_eq_true', List.any_eq_false, Text.contains_iff] at *
  exact fun b hb hbx => h b hb (hbx.trans hxy)

end GuardedPiece

/-- The text consists of a stretch for each part that the part covers and
admits. -/
inductive Spells : List GuardedPiece → Text → Prop where
  | nil : Spells [] []
  | cons {part : GuardedPiece} {parts : List GuardedPiece} {x y : Text} :
      part.piece.Covers x → part.admits x = true → Spells parts y →
        Spells (part :: parts) (x ++ y)

theorem spells_of_isParse {parts : List GuardedPiece} {p : Place} {ws : List Nat}
    (h : IsParse p (parts.map (·.piece)) ws) (hfree : Matcher.crosses parts p.rest ws = false) :
    Spells parts (p.rest.take (parseWidth ws)) := by
  induction parts generalizing p ws with
  | nil =>
      cases h with
      | nil => exact .nil
  | cons part parts ih =>
      cases h with
      | @cons _ _ _ w ws hw hrest =>
          rw [Matcher.crosses, Bool.or_eq_false_iff] at hfree
          rw [parseWidth, List.take_add]
          refine .cons (Piece.mem_widths.mp hw).2.1 ?_ ?_
          · rw [GuardedPiece.admits, hfree.1]
            rfl
          · rw [← Place.rest_skip]
            exact ih hrest (by rw [Place.rest_skip]; exact hfree.2)

/-- A match is spelled by the parts of its matcher. -/
theorem spells_of_width? {m : Matcher} {p : Place} {w : Nat} (h : m.width? p = some w) :
    Spells m.parts (p.rest.take w) ∧ w ≤ p.rest.length := by
  obtain ⟨ws, hpref, hfree, rfl⟩ := Matcher.width?_eq_some_iff.mp h
  have hparse := isParse_of_preferred hpref
  exact ⟨spells_of_isParse hparse hfree, hparse.parseWidth_le⟩

/-! ## Residuals -/

namespace GuardedPiece

/-- What may cover the rest of a stretch of the part after a cut, if the
rest is not empty. -/
def cuts (part : GuardedPiece) : List GuardedPiece :=
  match part.piece with
  | .literal t | .keyword t | .optional t =>
      (List.range t.length).map fun k => Matcher.unguarded (.literal (t.drop k))
  | .space | .someSpace | .lineBreak => [Matcher.unguarded .space]
  | .gap | .gapWithin _ => [part]

theorem exists_cut_of_text {t a x : Text} (hx : x ≠ []) (h : a ++ x = t) :
    ∃ cut ∈ (List.range t.length).map fun k => Matcher.unguarded (.literal (t.drop k)),
      cut.piece.Covers x ∧ cut.admits x = true := by
  have hpos := List.length_pos_iff.mpr hx
  have hlen := congrArg List.length h
  rw [List.length_append] at hlen
  refine ⟨_, List.mem_map.mpr ⟨a.length, List.mem_range.mpr (by omega), rfl⟩, ?_, rfl⟩
  rw [← h]
  exact (List.drop_left).symm

theorem exists_cut {part : GuardedPiece} {a x : Text} (hcov : part.piece.Covers (a ++ x))
    (hadm : part.admits (a ++ x) = true) (hx : x ≠ []) :
    ∃ cut ∈ part.cuts, cut.piece.Covers x ∧ cut.admits x = true := by
  have hpart : x <:+: a ++ x := (List.suffix_append a x).isInfix
  have blank : (∀ c ∈ a ++ x, Text.isBlank c = true) → Piece.space.Covers x :=
    fun h c hc => h c (List.mem_append_right a hc)
  obtain ⟨piece, banned⟩ := part
  cases piece with
  | literal t => exact exists_cut_of_text hx hcov
  | keyword t => exact exists_cut_of_text hx hcov
  | optional t =>
      rcases hcov with hfull | hnone
      · exact exists_cut_of_text hx hfull
      · exact absurd (List.append_eq_nil_iff.mp hnone).2 hx
  | space => exact ⟨_, List.mem_singleton.mpr rfl, blank hcov, rfl⟩
  | someSpace => exact ⟨_, List.mem_singleton.mpr rfl, blank hcov.1, rfl⟩
  | lineBreak => exact ⟨_, List.mem_singleton.mpr rfl, blank hcov.1, rfl⟩
  | gap => exact ⟨_, List.mem_singleton.mpr rfl, trivial, admits_of_part hpart hadm⟩
  | gapWithin n =>
      refine ⟨_, List.mem_singleton.mpr rfl, ?_, admits_of_part hpart hadm⟩
      exact Nat.le_trans (hpart.sublist.count_le _) hcov

end GuardedPiece

/-- The parts left at a cut within a stretch, for each part and cut. -/
def residuals : List GuardedPiece → List (List GuardedPiece)
  | [] => []
  | part :: parts => part.cuts.map (· :: parts) ++ residuals parts

/-- What is left of a spelled text is spelled by a residual. -/
theorem exists_residual {parts : List GuardedPiece} {a y : Text} (h : Spells parts (a ++ y))
    (hy : y ≠ []) : ∃ rest ∈ residuals parts, Spells rest y := by
  generalize hz : a ++ y = z at h
  induction h generalizing a with
  | nil => exact absurd (List.append_eq_nil_iff.mp hz).2 hy
  | @cons part parts x z hcov hadm hspell ih =>
      rcases List.append_eq_append_iff.mp hz with ⟨x', rfl, rfl⟩ | ⟨a', rfl, hy'⟩
      · by_cases hx : x' = []
        · -- the cut falls between two stretches
          subst hx
          obtain ⟨rest, hmem, hrest⟩ := ih (a := []) rfl
          exact ⟨rest, List.mem_append_right _ hmem, hrest⟩
        · obtain ⟨cut, hcut, hcov', hadm'⟩ := GuardedPiece.exists_cut hcov hadm hx
          exact ⟨cut :: parts, List.mem_append_left _ (List.mem_map_of_mem hcut),
            .cons hcov' hadm' hspell⟩
      · obtain ⟨rest, hmem, hrest⟩ := ih hy'.symm
        exact ⟨rest, List.mem_append_right _ hmem, hrest⟩

/-! ## Reading through a text -/

namespace Piece

/-- The piece without word boundaries. -/
def unbounded : Piece → Piece
  | keyword t => literal t
  | piece => piece

theorem mem_widths_unbounded {piece : Piece} {p : Place} {w : Nat} :
    w ∈ piece.unbounded.widths p ↔ w ≤ p.rest.length ∧ piece.Covers (p.rest.take w) := by
  rw [mem_widths]
  cases piece <;> simp [unbounded, Covers, Bounded]

end Piece

namespace GuardedPiece

/-- The part may cover a stretch that starts with `t`. -/
def passes (part : GuardedPiece) (t : Text) : Bool :=
  part.admits t &&
    match part.piece with
    | .literal u | .keyword u | .optional u => t.isPrefixOf u
    | .space | .someSpace | .lineBreak => t.all Text.isBlank
    | .gap => true
    | .gapWithin n => t.count '\n' ≤ n

/-- The widths of the fronts of `t` that the part may cover, whatever
stands around them. -/
def stops (part : GuardedPiece) (t : Text) : List Nat :=
  (part.piece.unbounded.widths (.start t)).filter fun k => part.admits (t.take k)

theorem passes_of_prefix {part : GuardedPiece} {x t : Text} (hcov : part.piece.Covers x)
    (hadm : part.admits x = true) (ht : t <+: x) : part.passes t = true := by
  have blank : (∀ c ∈ x, Text.isBlank c = true) → t.all Text.isBlank = true :=
    fun h => List.all_eq_true.mpr fun c hc => h c (ht.subset hc)
  rw [passes, admits_of_part ht.isInfix hadm, Bool.true_and]
  obtain ⟨piece, banned⟩ := part
  cases piece with
  | literal u => exact List.isPrefixOf_iff_prefix.mpr (hcov ▸ ht)
  | keyword u => exact List.isPrefixOf_iff_prefix.mpr (hcov ▸ ht)
  | optional u =>
      refine List.isPrefixOf_iff_prefix.mpr ?_
      rcases hcov with rfl | rfl
      · exact ht
      · rw [List.prefix_nil.mp ht]
        exact List.nil_prefix
  | space => exact blank hcov
  | someSpace => exact blank hcov.1
  | lineBreak => exact blank hcov.1
  | gap => rfl
  | gapWithin n => exact decide_eq_true (Nat.le_trans (ht.sublist.count_le _) hcov)

theorem mem_stops {part : GuardedPiece} {x t : Text} (hcov : part.piece.Covers x)
    (hadm : part.admits x = true) : x.length ∈ part.stops (x ++ t) := by
  have htake : (x ++ t).take x.length = x := List.take_left
  refine List.mem_filter.mpr ⟨Piece.mem_widths_unbounded.mpr ⟨?_, ?_⟩, ?_⟩
  · show x.length ≤ (x ++ t).length
    rw [List.length_append]
    omega
  · show part.piece.Covers ((x ++ t).take x.length)
    rw [htake]
    exact hcov
  · rw [htake]
    exact hadm

end GuardedPiece

/-- A text spelled by the parts may start with `t`, or be a front of it. -/
def reads : List GuardedPiece → Text → Bool
  | [], _ => true
  | part :: parts, t => part.passes t || (part.stops t).any fun k => reads parts (t.drop k)

/-- A spelled text that starts like `t` does is read through `t`. -/
theorem reads_of_spells {parts : List GuardedPiece} {y t z : Text} (h : Spells parts y)
    (hy : y <+: z) (ht : t <+: z) : reads parts t = true := by
  induction h generalizing t z with
  | nil => rfl
  | @cons part parts x y hcov hadm _ ih =>
      have hx : x <+: z := (List.prefix_append x y).trans hy
      rw [reads, Bool.or_eq_true]
      rcases Nat.le_total t.length x.length with hle | hle
      · exact .inl (GuardedPiece.passes_of_prefix hcov hadm
          (List.prefix_of_prefix_length_le ht hx hle))
      · obtain ⟨t, rfl⟩ := List.prefix_of_prefix_length_le hx ht hle
        obtain ⟨z, rfl⟩ := hx
        rw [List.prefix_append_right_inj] at hy ht
        refine .inr (List.any_eq_true.mpr ⟨x.length, GuardedPiece.mem_stops hcov hadm, ?_⟩)
        rw [List.drop_left]
        exact ih hy ht

/-- What is left of a spelled text behind its first character is spelled by
a residual. -/
theorem Spells.exists_residual_behind {c : Char} {u : Text} {parts : List GuardedPiece} {x : Text}
    (h : Spells (Matcher.unguarded (.literal (c :: u)) :: parts) x) {k : Nat} (hpos : 0 < k)
    (hk : k < x.length) :
    ∃ rest ∈ residuals (Matcher.unguarded (.literal u) :: parts), Spells rest (x.drop k) := by
  obtain ⟨j, rfl⟩ : ∃ j, k = j + 1 := ⟨k - 1, by omega⟩
  cases h with
  | @cons _ _ l y hcov _ hspell =>
      obtain rfl : l = c :: u := hcov
      have hbehind : Spells (Matcher.unguarded (.literal u) :: parts) (u ++ y) :=
        .cons rfl rfl hspell
      rw [← List.take_append_drop j (u ++ y)] at hbehind
      have hne : (u ++ y).drop j ≠ [] := by
        rw [ne_eq, List.drop_eq_nil_iff]
        simp only [List.cons_append, List.length_cons] at hk
        omega
      exact exists_residual hbehind hne

/-- The text `t` does not stand within a spelled text behind its first
character, if no residual of the parts reads through it. -/
theorem Spells.not_prefix_behind {c : Char} {u : Text} {parts : List GuardedPiece} {x z t : Text}
    (h : Spells (Matcher.unguarded (.literal (c :: u)) :: parts) x) (hx : x <+: z)
    (hfree : (residuals (Matcher.unguarded (.literal u) :: parts)).all (!reads · t) = true)
    {k : Nat} (hpos : 0 < k) (hk : k < x.length) : ¬ t <+: z.drop k := by
  intro ht
  obtain ⟨rest, hmem, hrest⟩ := h.exists_residual_behind hpos hk
  have hreads := reads_of_spells hrest (List.IsPrefix.drop hx k) ht
  have hnot := List.all_eq_true.mp hfree rest hmem
  rw [hreads] at hnot
  cases hnot

/-! ## Matchers that repel a text -/

namespace Matcher

/-- No match may share a character with an occurrence of `t`: none gets
into it from the left, and none starts within it. -/
def repels (m : Matcher) (t : Text) : Bool :=
  (residuals m.parts).all (fun rest => !reads rest t)
    && (List.range t.length).all fun k => !reads m.parts (t.drop k)

/-- **A match before a repelled text** ends where that text starts, or
earlier. -/
theorem width?_le_of_repels {m : Matcher} {t : Text} (h : m.repels t = true) {b : Option Char}
    {a c : Text} {w : Nat} (hw : m.width? ⟨b, a ++ (t ++ c)⟩ = some w) : w ≤ a.length := by
  obtain ⟨hspell, hle⟩ := spells_of_width? hw
  refine Nat.le_of_not_lt fun hlt => ?_
  have hsplit : (a ++ (t ++ c)).take w = a ++ (t ++ c).take (w - a.length) := by
    rw [List.take_append, List.take_of_length_le (Nat.le_of_lt hlt)]
  have hne : (t ++ c).take (w - a.length) ≠ [] := by
    simp only [List.length_append] at hle
    rw [ne_eq, List.take_eq_nil_iff, ← List.length_eq_zero_iff, List.length_append]
    omega
  rw [hsplit] at hspell
  obtain ⟨rest, hmem, hrest⟩ := exists_residual hspell hne
  have hreads := reads_of_spells hrest (List.take_prefix _ _) (List.prefix_append t c)
  have hfree := List.all_eq_true.mp (Bool.and_eq_true _ _ |>.mp h).1 rest hmem
  rw [hreads] at hfree
  cases hfree

/-- **No match starts within a repelled text.** -/
theorem width?_eq_none_of_repels {m : Matcher} {t : Text} (h : m.repels t = true)
    {b : Option Char} {c : Text} {k : Nat} (hk : k < t.length) :
    m.width? ⟨b, t.drop k ++ c⟩ = none := by
  cases hw : m.width? ⟨b, t.drop k ++ c⟩ with
  | none => rfl
  | some w =>
      obtain ⟨hspell, -⟩ := spells_of_width? hw
      have hreads := reads_of_spells hspell (List.take_prefix _ _) (List.prefix_append _ c)
      have hfree := List.all_eq_true.mp (Bool.and_eq_true _ _ |>.mp h).2 k (List.mem_range.mpr hk)
      rw [hreads] at hfree
      cases hfree

end Matcher

end Upkeep
