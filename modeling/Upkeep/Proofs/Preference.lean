import Upkeep.Proofs.Parse

/-!
# The order of parses

`preferred` tries the widths of the first piece one after the other and
takes the first that leads to a parse. This file says which parse that is
without following the search. Parses of the same pieces are compared at
the first piece where they differ (`Precedes`): there a gap is rather
short than long, and everything else rather long than short, so that an
optional text is rather present than absent. The preferred parse is the
one that precedes all others (`preferred_eq_some_iff`), and there is one
unless there is no parse at all (`preferred_eq_none_iff`).
-/

namespace Upkeep

namespace Piece

/-! ## Widths in order -/

/-- Gaps are tried from the shortest width on, and everything else from
the longest. -/
def precedes (piece : Piece) (w v : Nat) : Prop := if piece.isGap then w < v else v < w

theorem precedes_asymm {piece : Piece} {w v : Nat} (h : piece.precedes w v) :
    ¬ piece.precedes v w := by
  unfold precedes at *
  split
  · rename_i hgap
    rw [if_pos hgap] at h
    omega
  · rename_i hgap
    rw [if_neg hgap] at h
    omega

theorem pairwise_downTo (low high : Nat) : (downTo low high).Pairwise fun w v => v < w := by
  rw [downTo, List.pairwise_reverse]
  exact List.pairwise_lt_range.filter _

theorem pairwise_widths {piece : Piece} (h : piece ≠ .optional []) (p : Place) :
    (piece.widths p).Pairwise piece.precedes := by
  cases piece with
  | literal t =>
      rw [widths]
      split <;> simp
  | keyword t =>
      rw [widths]
      split <;> simp
  | optional t =>
      have ht : 0 < t.length := List.length_pos_iff.mpr fun ht => h (by rw [ht])
      rw [widths]
      split <;> simp [precedes, isGap, ht]
  | space => exact pairwise_downTo _ _
  | someSpace => exact pairwise_downTo _ _
  | lineBreak => exact pairwise_downTo _ _
  | gap => exact List.pairwise_lt_range
  | gapWithin n => exact List.pairwise_lt_range

/-- An optional empty text lists its only width twice. -/
theorem pairwise_widths_or_eq (piece : Piece) (p : Place) :
    (piece.widths p).Pairwise fun w v => v = w ∨ piece.precedes w v := by
  by_cases h : piece = .optional []
  · subst h
    simp [widths]
  · exact (pairwise_widths h p).imp Or.inr

end Piece

/-! ## Parses in order -/

/-- The first of two parses of the pieces is tried before the second: at
the first piece where they differ, its width comes first. -/
inductive Precedes : List Piece → List Nat → List Nat → Prop where
  | head {piece : Piece} {pieces : List Piece} {w v : Nat} {ws vs : List Nat} :
      piece.precedes w v → Precedes (piece :: pieces) (w :: ws) (v :: vs)
  | tail {piece : Piece} {pieces : List Piece} {w : Nat} {ws vs : List Nat} :
      Precedes pieces ws vs → Precedes (piece :: pieces) (w :: ws) (w :: vs)

theorem Precedes.asymm {pieces : List Piece} {ws vs : List Nat} (h : Precedes pieces ws vs) :
    ¬ Precedes pieces vs ws := by
  induction h with
  | head hw =>
      intro h'
      cases h' with
      | head hv => exact Piece.precedes_asymm hw hv
      | tail => exact Piece.precedes_asymm hw hw
  | tail _ ih =>
      intro h'
      cases h' with
      | head hw => exact Piece.precedes_asymm hw hw
      | tail htail => exact ih htail

/-- A parse that precedes all other parses at the place. -/
def IsFirstParse (p : Place) (pieces : List Piece) (ws : List Nat) : Prop :=
  IsParse p pieces ws ∧ ∀ vs, IsParse p pieces vs → vs = ws ∨ Precedes pieces ws vs

theorem IsFirstParse.unique {p : Place} {pieces : List Piece} {ws vs : List Nat}
    (hw : IsFirstParse p pieces ws) (hv : IsFirstParse p pieces vs) : ws = vs := by
  rcases hv.2 ws hw.1 with heq | hbefore
  · exact heq
  · rcases hw.2 vs hv.1 with heq | hafter
    · exact heq.symm
    · exact absurd hafter hbefore.asymm

theorem preferred_eq_none_iff {p : Place} {pieces : List Piece} :
    preferred p pieces = none ↔ ∀ ws, ¬ IsParse p pieces ws := by
  constructor
  · intro h ws hparse
    have hsome := isSome_preferred hparse
    rw [h] at hsome
    cases hsome
  · intro h
    cases hpref : preferred p pieces with
    | none => rfl
    | some ws => exact absurd (isParse_of_preferred hpref) (h ws)

/-- What is tried later than the preferred parse follows it. The
induction is on the pieces: a width that was tried in vain starts no
parse, and behind the width that was taken the rest is preferred. -/
theorem isFirstParse_of_preferred {p : Place} {pieces : List Piece} {ws : List Nat}
    (h : preferred p pieces = some ws) : IsFirstParse p pieces ws := by
  refine ⟨isParse_of_preferred h, ?_⟩
  induction pieces generalizing p ws with
  | nil =>
      intro vs hvs
      cases hvs with
      | nil => exact .inl (by simpa [preferred] using h)
  | cons piece pieces ih =>
      obtain ⟨before, w, after, hsplit, hw, hvain⟩ := List.findSome?_eq_some_iff.mp h
      obtain ⟨ws, hws, rfl⟩ := Option.map_eq_some_iff.mp hw
      have hsorted := piece.pairwise_widths_or_eq p
      rw [hsplit] at hsorted
      intro vs hvs
      cases hvs with
      | @cons _ _ _ v vs hv hrest =>
          rw [hsplit] at hv
          rcases List.mem_append.mp hv with hin | hin
          · have hnone : preferred (p.skip v) pieces = none := by simpa using hvain v hin
            exact absurd hrest (preferred_eq_none_iff.mp hnone vs)
          · -- `v` is `w`, or comes after it in the list of widths
            have hback := List.pairwise_cons.mp (List.pairwise_append.mp hsorted).2.1
            have hafter : v = w ∨ piece.precedes w v := by
              rcases List.mem_cons.mp hin with heq | hin
              · exact .inl heq
              · exact hback.1 v hin
            rcases hafter with rfl | hlt
            · rcases ih hws vs hrest with rfl | hlater
              · exact .inl rfl
              · exact .inr (.tail hlater)
            · exact .inr (.head hlt)

/-- **The preferred parse** is the one that precedes all others. -/
theorem preferred_eq_some_iff {p : Place} {pieces : List Piece} {ws : List Nat} :
    preferred p pieces = some ws ↔ IsFirstParse p pieces ws := by
  constructor
  · exact isFirstParse_of_preferred
  · intro h
    cases hpref : preferred p pieces with
    | none => exact absurd h.1 (preferred_eq_none_iff.mp hpref ws)
    | some vs => rw [h.unique (isFirstParse_of_preferred hpref)]

end Upkeep
