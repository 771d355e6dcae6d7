import Upkeep.Pattern.Matcher

/-!
# Parses of a pattern

`Piece.widths` tells what a piece may cover by listing widths in order of
preference. This file forgets the order. `Piece.Covers` says which
stretches of text a piece may cover, and `mem_widths` that the widths at
a place are those of the covered stretches, with a word boundary on both
sides of a keyword. `IsParse` is the relation behind `preferred`: the
preferred parse is a parse (`isParse_of_preferred`), and there is one
wherever there is a parse at all (`isSome_preferred`).

Texts are taken apart and put together again later on. What carries over
is this: a pattern that starts and ends with literals is parsed by looking
at the parsed text alone, so the same widths parse the same stretch in any
other surroundings (`IsParse.transport`).
-/

namespace Upkeep

/-! ## Places -/

namespace Place

theorem skip_skip (p : Place) (m n : Nat) : (p.skip m).skip n = p.skip (m + n) := by
  fun_induction skip p m with
  | case1 => rw [Nat.zero_add]
  | case2 b m =>
      rw [Nat.succ_add]
      cases n <;> rfl
  | case3 b c t m ih => rw [ih, Nat.succ_add, skip]

/-- Within `x`, the place reached does not depend on what follows `x`. -/
theorem before_skip_append (b : Option Char) {x : Text} (y y' : Text) {n : Nat}
    (h : n ≤ x.length) :
    (skip ⟨b, x ++ y⟩ n).before = (skip ⟨b, x ++ y'⟩ n).before := by
  induction x generalizing b n with
  | nil =>
      obtain rfl : n = 0 := by simpa using h
      simp
  | cons c x ih =>
      cases n with
      | zero => simp
      | succ n => exact ih (some c) (by simpa using h)

/-- Behind the first character, what stood before the text is forgotten. -/
theorem skip_succ_before (b b' : Option Char) {t : Text} {n : Nat} (h : n < t.length) :
    skip ⟨b, t⟩ (n + 1) = skip ⟨b', t⟩ (n + 1) := by
  cases t with
  | nil => simp at h
  | cons c t => rfl

end Place

/-! ## What a piece covers -/

theorem le_length_takeWhile_iff {q : Char → Bool} {t : Text} {w : Nat} (h : w ≤ t.length) :
    w ≤ (t.takeWhile q).length ↔ ∀ c ∈ t.take w, q c = true := by
  induction t generalizing w with
  | nil =>
      obtain rfl : w = 0 := by simpa using h
      simp
  | cons a t ih =>
      cases w with
      | zero => simp
      | succ w =>
          have hw : w ≤ t.length := by simpa using h
          by_cases ha : q a = true
          · simp [ha, ih hw]
          · simp [ha]

theorem length_takeWhile_le (q : Char → Bool) (t : Text) : (t.takeWhile q).length ≤ t.length :=
  (List.takeWhile_sublist q).length_le

namespace Piece

/-- The stretches of text a piece may cover, the word boundaries around a
keyword aside. -/
def Covers : Piece → Text → Prop
  | literal t, x => x = t
  | keyword w, x => x = w
  | optional t, x => x = t ∨ x = []
  | space, x => ∀ c ∈ x, Text.isBlank c = true
  | someSpace, x => (∀ c ∈ x, Text.isBlank c = true) ∧ x ≠ []
  | lineBreak, x => (∀ c ∈ x, Text.isBlank c = true) ∧ '\n' ∈ x
  | gap, _ => True
  | gapWithin n, x => x.count '\n' ≤ n

/-- Around a keyword of width `w` there are word boundaries. -/
def Bounded (p : Place) (w : Nat) : Piece → Prop
  | keyword _ => p.atBoundary = true ∧ (p.skip w).atBoundary = true
  | _ => True

theorem isPrefixOf_iff_take {t u : Text} :
    t.isPrefixOf u = true ↔ t.length ≤ u.length ∧ u.take t.length = t := by
  rw [List.isPrefixOf_iff_prefix, List.prefix_iff_eq_take]
  constructor
  · intro h
    have hlen := congrArg List.length h
    simp only [List.length_take] at hlen
    exact ⟨by omega, h.symm⟩
  · exact fun h => h.2.symm

/-- A width that covers exactly `t`. -/
theorem eq_length_iff_take {t u : Text} {w : Nat} :
    (w = t.length ∧ t.isPrefixOf u = true) ↔ w ≤ u.length ∧ u.take w = t := by
  rw [isPrefixOf_iff_take]
  constructor
  · rintro ⟨rfl, h⟩
    exact h
  · rintro ⟨hle, rfl⟩
    simp [List.length_take, hle]

theorem mem_downTo {w low high : Nat} : w ∈ downTo low high ↔ low ≤ w ∧ w ≤ high := by
  simp only [downTo, List.mem_reverse, List.mem_filter, List.mem_range, decide_eq_true_eq]
  omega

theorem le_reach_iff {n w : Nat} {t : Text} :
    w ≤ reach n t ↔ w ≤ t.length ∧ (t.take w).count '\n' ≤ n := by
  fun_induction reach n t generalizing w with
  | case1 n => simp
  | case2 t => cases w <;> simp
  | case3 c t hc ih =>
      cases w with
      | zero => simp
      | succ w => simp [hc, ih]
  | case4 n t ih =>
      cases w with
      | zero => simp
      | succ w => simp [ih]
  | case5 n c t hc ih =>
      cases w with
      | zero => simp
      | succ w => simp [hc, ih]

theorem mem_widths_space {p : Place} {w : Nat} :
    w ∈ space.widths p ↔ w ≤ p.rest.length ∧ ∀ c ∈ p.rest.take w, Text.isBlank c = true := by
  simp only [widths, mem_downTo, Nat.zero_le, true_and]
  constructor
  · intro h
    have hle := Nat.le_trans h (length_takeWhile_le _ _)
    exact ⟨hle, (le_length_takeWhile_iff hle).mp h⟩
  · exact fun h => (le_length_takeWhile_iff h.1).mpr h.2

/-- **The widths of a piece** are those of the stretches it covers. -/
theorem mem_widths {piece : Piece} {p : Place} {w : Nat} :
    w ∈ piece.widths p ↔
      w ≤ p.rest.length ∧ piece.Covers (p.rest.take w) ∧ piece.Bounded p w := by
  cases piece with
  | literal t =>
      simp only [widths, Covers, Bounded, and_true, ← eq_length_iff_take]
      split <;> simp_all
  | keyword t =>
      simp only [widths, Covers, Bounded]
      rw [← and_assoc, ← eq_length_iff_take]
      constructor
      · intro h
        split at h
        · rename_i hif
          obtain rfl := List.mem_singleton.mp h
          simp only [Bool.and_eq_true] at hif
          exact ⟨⟨rfl, hif.1.1⟩, hif.1.2, hif.2⟩
        · simp at h
      · rintro ⟨⟨rfl, hpre⟩, hfront, hback⟩
        simp [hpre, hfront, hback]
  | optional t =>
      have hnone : w = 0 ↔ w ≤ p.rest.length ∧ p.rest.take w = [] := by
        rw [List.take_eq_nil_iff]
        grind
      have hfull := eq_length_iff_take (t := t) (u := p.rest) (w := w)
      simp only [widths, Covers, Bounded, and_true, and_or_left]
      rw [← hfull, ← hnone]
      split
      · rename_i hif
        simp [hif]
      · rename_i hif
        simp [hif]
  | space => simpa [Covers, Bounded] using mem_widths_space
  | someSpace =>
      have hspace := mem_widths_space (p := p) (w := w)
      simp only [widths, mem_downTo, Nat.zero_le, true_and] at hspace ⊢
      simp only [Covers, Bounded, and_true]
      rw [and_comm, hspace, and_assoc, and_congr_right_iff]
      intro hle
      rw [and_congr_right_iff]
      intro _
      rw [ne_eq, List.take_eq_nil_iff, Nat.one_le_iff_ne_zero]
      grind
  | lineBreak =>
      have hspace := mem_widths_space (p := p) (w := w)
      simp only [widths, mem_downTo, Nat.zero_le, true_and] at hspace ⊢
      simp only [Covers, Bounded, and_true]
      rw [and_comm, hspace, and_assoc, and_congr_right_iff]
      intro hle
      rw [and_congr_right_iff]
      intro hblank
      -- the run of blanks and the text have the same front of width `w`
      have hrun : w ≤ (p.rest.takeWhile Text.isBlank).length :=
        (le_length_takeWhile_iff hle).mpr hblank
      have hfront : (p.rest.takeWhile Text.isBlank).take w = p.rest.take w := by
        obtain ⟨r, hr⟩ := List.takeWhile_prefix Text.isBlank (l := p.rest)
        have htake : (p.rest.takeWhile Text.isBlank ++ r).take w = _ :=
          List.take_append_of_le_length hrun
        rw [← htake, hr]
      have hline := le_length_takeWhile_iff (q := fun c => decide (c ≠ '\n')) hrun
      rw [hfront] at hline
      rw [Nat.add_one_le_iff, ← Nat.not_le, hline]
      grind
  | gap => simp only [widths, Covers, Bounded, List.mem_range, Nat.lt_succ_iff, and_true]
  | gapWithin n =>
      simp only [widths, Covers, Bounded, List.mem_range, Nat.lt_succ_iff, le_reach_iff, and_true]

end Piece

/-! ## Parses -/

/-- The widths `ws` parse the pieces at a place. -/
inductive IsParse : Place → List Piece → List Nat → Prop where
  | nil (p : Place) : IsParse p [] []
  | cons {p : Place} {piece : Piece} {pieces : List Piece} {w : Nat} {ws : List Nat} :
      w ∈ piece.widths p → IsParse (p.skip w) pieces ws → IsParse p (piece :: pieces) (w :: ws)

theorem isParse_of_preferred {p : Place} {pieces : List Piece} {ws : List Nat}
    (h : preferred p pieces = some ws) : IsParse p pieces ws := by
  induction pieces generalizing p ws with
  | nil =>
      obtain rfl : [] = ws := by simpa [preferred] using h
      exact .nil p
  | cons piece pieces ih =>
      obtain ⟨w, hw, hrest⟩ := List.exists_of_findSome?_eq_some h
      obtain ⟨vs, hvs, rfl⟩ := Option.map_eq_some_iff.mp hrest
      exact .cons hw (ih hvs)

theorem isSome_preferred {p : Place} {pieces : List Piece} {ws : List Nat}
    (h : IsParse p pieces ws) : (preferred p pieces).isSome = true := by
  induction h with
  | nil => rfl
  | cons hw _ ih =>
      rw [preferred, List.findSome?_isSome_iff]
      exact ⟨_, hw, by simpa using ih⟩

namespace IsParse

theorem length_eq {p : Place} {pieces : List Piece} {ws : List Nat} (h : IsParse p pieces ws) :
    ws.length = pieces.length := by
  induction h with
  | nil => rfl
  | cons _ _ ih => rw [List.length_cons, List.length_cons, ih]

theorem parseWidth_le {p : Place} {pieces : List Piece} {ws : List Nat}
    (h : IsParse p pieces ws) : parseWidth ws ≤ p.rest.length := by
  induction h with
  | nil => exact Nat.zero_le _
  | @cons p piece pieces w ws hw _ ih =>
      have hle := Piece.le_of_mem_widths hw
      rw [Place.rest_skip, List.length_drop] at ih
      rw [parseWidth]
      omega

/-- A parse of two lists of pieces is a parse of the first and, behind
it, a parse of the second. -/
theorem exists_of_append {p : Place} {front back : List Piece} {ws : List Nat}
    (h : IsParse p (front ++ back) ws) :
    ∃ us vs, ws = us ++ vs ∧ IsParse p front us
      ∧ IsParse (p.skip (parseWidth us)) back vs := by
  induction front generalizing p ws with
  | nil => exact ⟨[], ws, rfl, .nil p, by simpa [parseWidth] using h⟩
  | cons piece front ih =>
      cases h with
      | @cons _ _ _ w ws hw hrest =>
          obtain ⟨us, vs, rfl, hus, hvs⟩ := ih hrest
          refine ⟨w :: us, vs, rfl, .cons hw hus, ?_⟩
          rwa [parseWidth, ← Place.skip_skip]

end IsParse

/-- The rest of a preferred parse is preferred where it starts. -/
theorem preferred_append {p : Place} {front back : List Piece} {ws : List Nat}
    (h : preferred p (front ++ back) = some ws) :
    ∃ us vs, ws = us ++ vs ∧ IsParse p front us
      ∧ preferred (p.skip (parseWidth us)) back = some vs := by
  induction front generalizing p ws with
  | nil => exact ⟨[], ws, rfl, .nil p, by simpa [parseWidth] using h⟩
  | cons piece front ih =>
      obtain ⟨w, hw, hrest⟩ := List.exists_of_findSome?_eq_some h
      obtain ⟨ws, hws, rfl⟩ := Option.map_eq_some_iff.mp hrest
      obtain ⟨us, vs, rfl, hus, hvs⟩ := ih hws
      refine ⟨w :: us, vs, rfl, .cons hw hus, ?_⟩
      rwa [parseWidth, ← Place.skip_skip]

/-! ## The same text in other surroundings -/

namespace Piece

/-- A literal that covers something. -/
def isSolid : Piece → Bool
  | literal t => !t.isEmpty
  | _ => false

theorem pos_of_mem_widths {piece : Piece} {p : Place} {w : Nat} (hs : piece.isSolid = true)
    (hw : w ∈ piece.widths p) : 0 < w := by
  cases piece with
  | literal t =>
      simp only [widths] at hw
      split at hw
      · obtain rfl := List.mem_singleton.mp hw
        exact List.length_pos_iff.mpr (by simpa [isSolid] using hs)
      · simp at hw
  | _ => simp [isSolid] at hs

/-- The first and the last piece are literals, so that no word boundary
is asked for at the ends of a parse. -/
def isWalled (pieces : List Piece) : Bool :=
  pieces.head?.any isSolid && pieces.getLast?.any isSolid

end Piece

theorem Place.atBoundary_append {b : Option Char} {x : Text} (hx : x ≠ []) (y y' : Text) :
    Place.atBoundary ⟨b, x ++ y⟩ = Place.atBoundary ⟨b, x ++ y'⟩ := by
  obtain ⟨c, x, rfl⟩ := List.exists_cons_of_ne_nil hx
  rfl

namespace IsParse

/-- Pieces of which the last is solid cover something. -/
theorem parseWidth_pos {p : Place} {pieces : List Piece} {ws : List Nat}
    (h : IsParse p pieces ws) (hlast : pieces.getLast?.any Piece.isSolid = true) :
    0 < parseWidth ws := by
  induction h with
  | nil => simp at hlast
  | @cons p piece pieces w ws hw _ ih =>
      rw [parseWidth]
      cases pieces with
      | nil => exact Nat.add_pos_left (Piece.pos_of_mem_widths (by simpa using hlast) hw) _
      | cons next pieces =>
          exact Nat.add_pos_right _ (ih (by simpa [List.getLast?_cons_cons] using hlast))

/-- What follows the parsed text does not matter if a literal ends the
pattern. -/
theorem transport_after {b : Option Char} {pieces : List Piece} {ws : List Nat} {x y : Text}
    (h : IsParse ⟨b, x ++ y⟩ pieces ws) (hx : parseWidth ws = x.length)
    (hlast : pieces.getLast?.any Piece.isSolid = true) (y' : Text) :
    IsParse ⟨b, x ++ y'⟩ pieces ws := by
  induction pieces generalizing b x ws with
  | nil => simp at hlast
  | cons piece pieces ih =>
      have hpos := h.parseWidth_pos hlast
      cases h with
      | @cons _ _ _ w ws hw hrest =>
          rw [parseWidth] at hx hpos
          have hwx : w ≤ x.length := by omega
          have hstep : ∀ z : Text, Place.skip ⟨b, x ++ z⟩ w
              = ⟨(Place.skip ⟨b, x ++ y⟩ w).before, x.drop w ++ z⟩ := by
            intro z
            rw [Place.before_skip_append b y z hwx]
            refine congrArg (Place.mk _) ?_
            rw [Place.rest_skip]
            exact List.drop_append_of_le_length hwx
          have htake : ∀ z : Text, (x ++ z).take w = x.take w :=
            fun z => List.take_append_of_le_length hwx
          obtain ⟨-, hcov, hbound⟩ := Piece.mem_widths.mp hw
          refine .cons (Piece.mem_widths.mpr ⟨?_, ?_, ?_⟩) ?_
          · show w ≤ (x ++ y').length
            rw [List.length_append]
            omega
          · show piece.Covers ((x ++ y').take w)
            rw [htake y', ← htake y]
            exact hcov
          · -- a keyword is never last, so both its boundaries lie within `x`
            cases piece with
            | keyword t =>
                cases pieces with
                | nil => simp [Piece.isSolid] at hlast
                | cons next pieces =>
                    have hmore := hrest.parseWidth_pos (by simpa using hlast)
                    have hx0 : x ≠ [] := List.length_pos_iff.mp (by omega)
                    have hxw : x.drop w ≠ [] := by
                      rw [ne_eq, List.drop_eq_nil_iff]
                      omega
                    refine ⟨?_, ?_⟩
                    · rw [← Place.atBoundary_append hx0 y]
                      exact hbound.1
                    · rw [hstep y', ← Place.atBoundary_append hxw y, ← hstep y]
                      exact hbound.2
            | _ => trivial
          · cases pieces with
            | nil =>
                cases hrest with
                | nil => exact .nil _
            | cons next pieces =>
                rw [hstep y']
                rw [hstep y] at hrest
                refine ih hrest ?_ (by simpa using hlast)
                rw [List.length_drop]
                omega

/-- **Transport of a parse.** A walled pattern that parses a text parses
the same text in the same way wherever it stands. -/
theorem transport {b b' : Option Char} {pieces : List Piece} {ws : List Nat} {x y y' : Text}
    (h : IsParse ⟨b, x ++ y⟩ pieces ws) (hx : parseWidth ws = x.length)
    (hwall : Piece.isWalled pieces = true) : IsParse ⟨b', x ++ y'⟩ pieces ws := by
  obtain ⟨hhead, hlast⟩ := Bool.and_eq_true _ _ |>.mp hwall
  have hafter := h.transport_after hx hlast y'
  cases hafter with
  | nil => simp at hhead
  | @cons _ piece _ w ws hw hrest =>
      have hsolid : piece.isSolid = true := by simpa using hhead
      have hle := Piece.le_of_mem_widths hw
      cases piece with
      | literal t =>
          obtain ⟨n, rfl⟩ := Nat.exists_eq_succ_of_ne_zero
            (Nat.pos_iff_ne_zero.mp (Piece.pos_of_mem_widths hsolid hw))
          refine .cons hw ?_
          rwa [Place.skip_succ_before b' b hle]
      | _ => simp [Piece.isSolid] at hsolid

end IsParse

end Upkeep
