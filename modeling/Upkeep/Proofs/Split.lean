import Mathlib.Data.List.Forall2
import Upkeep.Proofs.Guard

/-!
# Splits of a text

A parse tells a list of widths, and a matcher tests its guards on the way.
This file says both in terms of the text alone. A *split* assigns to each
piece of a pattern a stretch of the text, one after the other, and asks for
word boundaries around a keyword where it stands in the whole text
(`Split`). Splits and parses are the same (`split_of_isParse`,
`Split.isParse`).

The guards of a compiled pattern are found in one pass over its pieces.
What they amount to is said of each gap by itself: among the anchors in
front of it, the gap may contain neither the first nor the last
(`Straddles`, `Matcher.crosses_iff_straddles`).
-/

namespace Upkeep

/-! ## Word boundaries in a whole text -/

namespace Text

/-- The character before character `n`, if there is one. -/
def before? (t : Text) (n : Nat) : Option Char := if n = 0 then none else t[n - 1]?

/-- A word begins or ends right before character `n` of the text. -/
def boundaryAt (t : Text) (n : Nat) : Bool := isBoundary (t.before? n) t[n]?

end Text

namespace Place

@[simp] theorem rest_start (t : Text) : (start t).rest = t := rfl

theorem before_skip (b : Option Char) {t : Text} {n : Nat} (h : n ≤ t.length) :
    (skip ⟨b, t⟩ n).before = if n = 0 then b else t[n - 1]? := by
  induction t generalizing b n with
  | nil =>
      obtain rfl : n = 0 := by simpa using h
      rfl
  | cons c t ih =>
      cases n with
      | zero => rfl
      | succ n =>
          rw [skip, ih (some c) (by simpa using h)]
          cases n with
          | zero => rfl
          | succ n => rfl

theorem atBoundary_skip_start {t : Text} {n : Nat} (h : n ≤ t.length) :
    ((start t).skip n).atBoundary = t.boundaryAt n := by
  unfold atBoundary Text.boundaryAt
  rw [rest_skip, List.head?_drop, start, before_skip none h]
  rfl

end Place

/-! ## Splits -/

/-- A keyword between the characters `n` and `m` is set apart from the
words around it. -/
def Piece.SetApart (t : Text) (n m : Nat) : Piece → Prop
  | keyword _ => t.boundaryAt n = true ∧ t.boundaryAt m = true
  | _ => True

/-- The stretches `xs` stand in `t` one after the other from character `n`
on, one for each piece, and each is covered by its piece. -/
inductive Split (t : Text) : Nat → List Piece → List Text → Prop where
  | nil (n : Nat) : Split t n [] []
  | cons {n : Nat} {piece : Piece} {pieces : List Piece} {x : Text} {xs : List Text} :
      x <+: t.drop n → piece.Covers x → piece.SetApart t n (n + x.length) →
        Split t (n + x.length) pieces xs → Split t n (piece :: pieces) (x :: xs)

/-- The stretches that widths mark off. -/
def slices : Text → List Nat → List Text
  | _, [] => []
  | t, w :: ws => t.take w :: slices (t.drop w) ws

theorem flatten_slices (t : Text) (ws : List Nat) :
    (slices t ws).flatten = t.take (parseWidth ws) := by
  induction ws generalizing t with
  | nil => simp [slices, parseWidth]
  | cons w ws ih => rw [slices, List.flatten_cons, ih, parseWidth, List.take_add]

theorem parseWidth_map_length (xs : List Text) : parseWidth (xs.map List.length) = xs.flatten.length := by
  induction xs with
  | nil => rfl
  | cons x xs ih => rw [List.map_cons, parseWidth, ih, List.flatten_cons, List.length_append]

theorem Split.flatten_prefix_drop {t : Text} {n : Nat} {pieces : List Piece} {xs : List Text}
    (h : Split t n pieces xs) : xs.flatten <+: t.drop n := by
  induction h with
  | nil => exact List.nil_prefix
  | @cons n piece pieces x xs hx _ _ _ ih =>
      obtain ⟨r, hr⟩ := hx
      rw [← List.drop_drop, ← hr, List.drop_left] at ih
      rw [← hr, List.flatten_cons, List.prefix_append_right_inj]
      exact ih

theorem Split.covers {t : Text} {n : Nat} {pieces : List Piece} {xs : List Text}
    (h : Split t n pieces xs) : List.Forall₂ Piece.Covers pieces xs := by
  induction h with
  | nil => exact .nil
  | cons _ hcov _ _ ih => exact .cons hcov ih

theorem Split.slices_map_length {t : Text} {n : Nat} {pieces : List Piece} {xs : List Text}
    (h : Split t n pieces xs) : slices (t.drop n) (xs.map List.length) = xs := by
  induction h with
  | nil => rfl
  | @cons n piece pieces x xs hx _ _ _ ih =>
      rw [List.map_cons, slices, ← List.prefix_iff_eq_take.mp hx, List.drop_drop, ih]

theorem Piece.setApart_iff {piece : Piece} {t : Text} {n w : Nat} (h : n + w ≤ t.length) :
    piece.SetApart t n (n + w) ↔ piece.Bounded ((Place.start t).skip n) w := by
  cases piece with
  | keyword u =>
      rw [SetApart, Bounded, Place.skip_skip, Place.atBoundary_skip_start h,
        Place.atBoundary_skip_start (Nat.le_trans (Nat.le_add_right n w) h)]
  | _ => exact Iff.rfl

/-- A parse marks off the stretches of a split. -/
theorem split_of_isParse {t : Text} {n : Nat} {pieces : List Piece} {ws : List Nat}
    (hn : n ≤ t.length) (h : IsParse ((Place.start t).skip n) pieces ws) :
    Split t n pieces (slices (t.drop n) ws) := by
  induction pieces generalizing n ws with
  | nil =>
      cases h with
      | nil => exact .nil n
  | cons piece pieces ih =>
      cases h with
      | @cons _ _ _ w ws hw hrest =>
          obtain ⟨hle, hcov, hbound⟩ := Piece.mem_widths.mp hw
          rw [Place.rest_skip, Place.rest_start] at hle hcov
          have hend : n + w ≤ t.length := by
            rw [List.length_drop] at hle
            omega
          have hlen : ((t.drop n).take w).length = w := by
            rw [List.length_take]
            exact Nat.min_eq_left hle
          rw [Place.skip_skip] at hrest
          have htail := ih hend hrest
          refine .cons (List.take_prefix w _) hcov ?_ ?_
          · rw [hlen]
            exact (Piece.setApart_iff hend).mpr hbound
          · rw [hlen, List.drop_drop]
            exact htail

/-- The lengths of the stretches of a split are a parse. -/
theorem Split.isParse {t : Text} {n : Nat} {pieces : List Piece} {xs : List Text}
    (h : Split t n pieces xs) (hn : n ≤ t.length) :
    IsParse ((Place.start t).skip n) pieces (xs.map List.length) := by
  induction h with
  | nil => exact .nil _
  | @cons n piece pieces x xs hx hcov hapart _ ih =>
      have hle : x.length ≤ (t.drop n).length := hx.length_le
      have hend : n + x.length ≤ t.length := by
        rw [List.length_drop] at hle
        omega
      have htail := ih hend
      rw [← Place.skip_skip] at htail
      refine .cons (Piece.mem_widths.mpr ⟨?_, ?_, (Piece.setApart_iff hend).mp hapart⟩) htail
      · rw [Place.rest_skip, Place.rest_start]
        exact hle
      · rw [Place.rest_skip, Place.rest_start, ← List.prefix_iff_eq_take.mp hx]
        exact hcov

/-! ## Guards -/

namespace Piece

/-- The anchors among the pieces, in order. -/
def anchors (pieces : List Piece) : List Text := pieces.filterMap anchor?

/-- A gap behind the pieces `front` may not contain `a`: it is the first
of the anchors among them, or the last. -/
def Bans (front : List Piece) (a : Text) : Prop :=
  (anchors front).head? = some a ∨ (anchors front).getLast? = some a

theorem anchor?_of_isGap {piece : Piece} (h : piece.isGap = true) : piece.anchor? = none := by
  cases piece with
  | gap => rfl
  | gapWithin n => rfl
  | _ => simp [isGap] at h

theorem anchors_cons (piece : Piece) (pieces : List Piece) :
    anchors (piece :: pieces) = piece.anchor?.toList ++ anchors pieces := by
  unfold anchors
  cases h : piece.anchor? with
  | none => rw [List.filterMap_cons_none h]; rfl
  | some a => rw [List.filterMap_cons_some h]; rfl

theorem getLast?_anchors_cons (piece : Piece) (pieces : List Piece) (last : Option Text) :
    (anchors (piece :: pieces)).getLast?.or last
      = (anchors pieces).getLast?.or (piece.anchor?.or last) := by
  rw [anchors_cons, List.getLast?_append, Option.or_assoc]
  cases piece.anchor? <;> rfl

theorem head?_anchors_take {pieces : List Piece} {lead : Text}
    (h : pieces.findSome? anchor? = some lead) (i : Nat) :
    (anchors (pieces.take i)).head? = none ∨ (anchors (pieces.take i)).head? = some lead := by
  cases hfront : (anchors (pieces.take i)).head? with
  | none => exact .inl rfl
  | some a =>
      refine .inr ?_
      rw [anchors, List.head?_filterMap] at hfront
      rw [← List.take_append_drop i pieces, List.findSome?_append, hfront] at h
      exact h

end Piece

/-- Some gap of a split contains an anchor that is banned from it. -/
def Straddles (pieces : List Piece) (xs : List Text) : Prop :=
  ∃ (i : Nat) (piece : Piece) (x a : Text), pieces[i]? = some piece ∧ xs[i]? = some x
    ∧ piece.isGap = true ∧ Piece.Bans (pieces.take i) a ∧ a <:+: x

theorem not_straddles_of_gapFree {pieces : List Piece} (h : pieces.all (!Piece.isGap ·) = true)
    (xs : List Text) : ¬ Straddles pieces xs := by
  rintro ⟨i, piece, x, a, hi, -, hgap, -⟩
  have hfree := List.all_eq_true.mp h piece (List.mem_of_getElem? hi)
  rw [hgap] at hfree
  cases hfree

namespace Matcher

/-- The induction follows `guarded` along the pieces; `last` is the nearest
anchor before them. -/
theorem crosses_guarded (lead : Text) (last : Option Text) (pieces : List Piece) (t : Text)
    (ws : List Nat) :
    crosses (guarded lead last pieces) t ws = true ↔
      ∃ (i : Nat) (piece : Piece) (x a : Text), pieces[i]? = some piece
        ∧ (slices t ws)[i]? = some x ∧ piece.isGap = true
        ∧ a ∈ bannedAfter lead ((Piece.anchors (pieces.take i)).getLast?.or last)
        ∧ a <:+: x := by
  induction pieces generalizing last t ws with
  | nil => simp [guarded, crosses]
  | cons piece pieces ih =>
      cases ws with
      | nil =>
          have hnil : ∀ parts, crosses parts t [] = false := by
            intro parts
            cases parts <;> rfl
          simp [hnil, slices]
      | cons w ws =>
          rw [← Nat.or_exists_add_one]
          simp only [List.getElem?_cons_zero, List.getElem?_cons_succ, slices, List.take_zero,
            List.take_succ_cons, Option.some.injEq, Piece.getLast?_anchors_cons]
          by_cases hgap : piece.isGap = true
          · simp only [guarded, hgap, if_true, crosses, Bool.or_eq_true, List.any_eq_true,
              Text.contains_iff, ih, Piece.anchor?_of_isGap hgap, Option.none_or]
            refine or_congr ?_ Iff.rfl
            constructor
            · rintro ⟨a, ha, hax⟩
              exact ⟨piece, t.take w, a, rfl, rfl, hgap, ha, hax⟩
            · rintro ⟨_, _, a, rfl, rfl, -, ha, hax⟩
              exact ⟨a, ha, hax⟩
          · simp only [guarded, if_neg hgap, crosses, List.any_nil, Bool.false_or, ih]
            constructor
            · exact .inr
            · rintro (⟨_, _, _, rfl, -, hgap', -⟩ | h)
              · exact absurd hgap' hgap
              · exact h

theorem mem_bannedAfter {pieces : List Piece} {lead : Text}
    (h : pieces.findSome? Piece.anchor? = some lead) (i : Nat) (a : Text) :
    a ∈ bannedAfter lead (Piece.anchors (pieces.take i)).getLast? ↔
      Piece.Bans (pieces.take i) a := by
  unfold Piece.Bans
  rcases Piece.head?_anchors_take h i with hnone | hlead
  · rw [List.head?_eq_none_iff.mp hnone]
    simp [bannedAfter]
  · rw [hlead]
    cases hlast : (Piece.anchors (pieces.take i)).getLast? with
    | none =>
        rw [List.getLast?_eq_none_iff.mp hlast] at hlead
        cases hlead
    | some b =>
        by_cases hb : b = lead
        · simp [bannedAfter, hb, eq_comm]
        · simp [bannedAfter, hb, eq_comm]

/-- **The guards of a compiled pattern**, said of each gap by itself. -/
theorem crosses_iff_straddles {rule : String} {pieces : List Piece} {m : Matcher}
    (hm : compile rule pieces = .ok m) (t : Text) (ws : List Nat) :
    crosses m.parts t ws = true ↔ Straddles pieces (slices t ws) := by
  obtain ⟨lead, hlead, rfl⟩ := exists_of_compile hm
  rw [crosses_guarded]
  simp only [Option.or_none, mem_bannedAfter hlead]
  rfl

/-- A split that straddles no anchor passes the guards. -/
theorem crosses_eq_false_of_split {rule : String} {pieces : List Piece} {m : Matcher}
    (hm : compile rule pieces = .ok m) {t : Text} {n : Nat} {xs : List Text}
    (hxs : Split t n pieces xs) (hclear : ¬ Straddles pieces xs) :
    crosses m.parts ((Place.start t).skip n).rest (xs.map List.length) = false := by
  rw [← Bool.not_eq_true, crosses_iff_straddles hm, Place.rest_skip, Place.rest_start,
    hxs.slices_map_length]
  exact hclear

end Matcher

end Upkeep
