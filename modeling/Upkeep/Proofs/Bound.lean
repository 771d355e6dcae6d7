import Mathlib.Data.List.Forall2
import Upkeep.Proofs.Splice

/-!
# A bound that is no bound

A gap within `n` lines is a gap as long as the text has no more than `n`
line breaks. This is seen in two steps.

A scan asks a piece for its widths at places of the text only, and for its
being a gap or an anchor. Pieces that agree in this are *alike* on the
text (`Piece.Alike`), and a pattern in which pieces are exchanged for alike
ones has the same lead and finds the same spans (`findAll_of_alike`),
whatever the pieces are and wherever they stand.

And a gap is alike a gap within as many lines as the text breaks
(`alike_of_bounds`): both may end at every character, the nearest first.
-/

namespace Upkeep

/-! ## Pieces that are alike on a text -/

namespace Piece

/-- Pieces of the same role with the same widths, in the same order, at
every place of the text. -/
structure Alike (t : Text) (a b : Piece) : Prop where
  isGap : a.isGap = b.isGap
  anchor? : a.anchor? = b.anchor?
  widths : ∀ p : Place, p.rest <:+ t → a.widths p = b.widths p

theorem Alike.rfl {t : Text} {a : Piece} : Alike t a a := ⟨Eq.refl _, Eq.refl _, fun _ _ => Eq.refl _⟩

end Piece

section Alike

variable {t : Text} {ps qs : List Piece}

theorem Place.rest_skip_suffix {p : Place} (h : p.rest <:+ t) (w : Nat) : (p.skip w).rest <:+ t := by
  rw [rest_skip]
  exact (List.drop_suffix w p.rest).trans h

/-- The preferred parse is the same at every place of the text. -/
theorem preferred_of_alike (h : List.Forall₂ (Piece.Alike t) ps qs) {p : Place}
    (hp : p.rest <:+ t) : preferred p ps = preferred p qs := by
  induction h generalizing p with
  | nil => rfl
  | @cons a b ps qs hab _ ih =>
      have hrest : ∀ w, preferred (p.skip w) ps = preferred (p.skip w) qs :=
        fun w => ih (Place.rest_skip_suffix hp w)
      simp only [preferred, hab.widths p hp, hrest]

theorem findSome?_anchor?_of_alike (h : List.Forall₂ (Piece.Alike t) ps qs) :
    ps.findSome? Piece.anchor? = qs.findSome? Piece.anchor? := by
  induction h with
  | nil => rfl
  | cons hab _ ih => rw [List.findSome?_cons, List.findSome?_cons, hab.anchor?, ih]

namespace Matcher

/-- The same texts are banned from the pieces. -/
theorem banned_of_alike (h : List.Forall₂ (Piece.Alike t) ps qs) (lead : Text)
    (last : Option Text) :
    (guarded lead last ps).map (·.banned) = (guarded lead last qs).map (·.banned) := by
  induction h generalizing last with
  | nil => rfl
  | @cons a b ps qs hab _ ih =>
      rw [guarded, guarded, hab.isGap, hab.anchor?]
      split
      · rw [List.map_cons, List.map_cons, ih]
      · rw [List.map_cons, List.map_cons, ih]

theorem crosses_of_banned {parts parts' : List GuardedPiece}
    (h : parts.map (·.banned) = parts'.map (·.banned)) (t : Text) (ws : List Nat) :
    crosses parts t ws = crosses parts' t ws := by
  induction parts generalizing parts' t ws with
  | nil =>
      obtain rfl : parts' = [] := by simpa using h.symm
      rfl
  | cons part parts ih =>
      cases parts' with
      | nil => simp at h
      | cons part' parts' =>
          rw [List.map_cons, List.map_cons, List.cons.injEq] at h
          cases ws with
          | nil => rfl
          | cons w ws => rw [crosses, crosses, h.1, ih h.2]

variable {rule rule' : String} {m m' : Matcher}

theorem width?_of_alike (h : List.Forall₂ (Piece.Alike t) ps qs) (hm : compile rule ps = .ok m)
    (hm' : compile rule' qs = .ok m') {p : Place} (hp : p.rest <:+ t) :
    m.width? p = m'.width? p := by
  have hpref : preferred p m.pieces = preferred p m'.pieces := by
    rw [(pieces_of_compile hm).1, (pieces_of_compile hm').1]
    exact preferred_of_alike h hp
  have hbanned : m.parts.map (·.banned) = m'.parts.map (·.banned) := by
    obtain ⟨lead, hlead, rfl⟩ := exists_of_compile hm
    obtain ⟨lead', hlead', rfl⟩ := exists_of_compile hm'
    rw [findSome?_anchor?_of_alike h, hlead', Option.some.injEq] at hlead
    rw [hlead]
    exact banned_of_alike h lead none
  simp only [width?, uncrossed?, hpref, crosses_of_banned hbanned]

/-- The scan of the rest `r` of the text, which is the same step by step. -/
theorem findFrom_of_alike (h : List.Forall₂ (Piece.Alike t) ps qs)
    (hm : compile rule ps = .ok m) (hm' : compile rule' qs = .ok m') {r : Text} (hr : r <:+ t)
    (b : Option Char) (pos covered : Nat) :
    m.findFrom b pos covered r = m'.findFrom b pos covered r := by
  induction r generalizing b pos covered with
  | nil => rfl
  | cons c r ih =>
      have hrest := ih ((List.suffix_cons c r).trans hr)
      have hhere : m.width? ⟨b, c :: r⟩ = m'.width? ⟨b, c :: r⟩ := width?_of_alike h hm hm' hr
      cases covered with
      | succ k => exact hrest (some c) (pos + 1) k
      | zero => simp only [findFrom, hhere, hrest]

/-- **Alike pieces are found alike**, with the same lead. -/
theorem findAll_of_alike (h : List.Forall₂ (Piece.Alike t) ps qs)
    (hm : compile rule ps = .ok m) (hm' : compile rule' qs = .ok m') :
    m.lead = m'.lead ∧ m.findAll t = m'.findAll t := by
  constructor
  · obtain ⟨lead, hlead, rfl⟩ := exists_of_compile hm
    obtain ⟨lead', hlead', rfl⟩ := exists_of_compile hm'
    rw [findSome?_anchor?_of_alike h, hlead', Option.some.injEq] at hlead
    exact hlead.symm
  · rw [findAll_eq_findFrom, findAll_eq_findFrom]
    exact findFrom_of_alike h hm hm' (List.suffix_refl t) none 0 0

end Matcher

end Alike

/-! ## Bounded gaps -/

namespace Piece

/-- The same piece, or a gap that is bounded by `n` lines. -/
def Bounds (n : Nat) (a b : Piece) : Prop := b = a ∨ (a = .gap ∧ b = .gapWithin n)

theorem reach_eq_length {n : Nat} {t : Text} (h : t.count '\n' ≤ n) : reach n t = t.length := by
  refine Nat.le_antisymm (reach_le n t) (le_reach_iff.mpr ⟨Nat.le_refl _, ?_⟩)
  rwa [List.take_length]

/-- A gap within as many lines as the text breaks is alike a gap. -/
theorem alike_of_bounds {n : Nat} {t : Text} (hn : t.count '\n' ≤ n) {a b : Piece}
    (h : Bounds n a b) : Alike t a b := by
  rcases h with rfl | ⟨rfl, rfl⟩
  · exact .rfl
  · refine ⟨rfl, rfl, ?_⟩
    intro p hp
    have hcount : p.rest.count '\n' ≤ n := Nat.le_trans (hp.sublist.count_le '\n') hn
    rw [widths, widths, reach_eq_length hcount]

end Piece

namespace Matcher

/-- **A large enough bound is no bound.** Gaps of a pattern, any of them,
may be bounded by as many lines as the text breaks: the lead, the spans
found and whether there is a match stay the same. -/
theorem findAll_bounded {rule rule' : String} {pieces bounded : List Piece} {m m' : Matcher}
    {n : Nat} {t : Text} (hn : t.count '\n' ≤ n)
    (hbounds : List.Forall₂ (Piece.Bounds n) pieces bounded) (hm : compile rule pieces = .ok m)
    (hm' : compile rule' bounded = .ok m') :
    m'.lead = m.lead ∧ m'.findAll t = m.findAll t ∧ m'.isMatch t = m.isMatch t := by
  have halike := hbounds.imp fun _ _ => Piece.alike_of_bounds hn
  obtain ⟨hlead, hfound⟩ := findAll_of_alike halike hm hm'
  refine ⟨hlead.symm, hfound.symm, ?_⟩
  rw [isMatch, isMatch, hfound]

/-- A pattern with two gaps, the first of them bounded or not. -/
def twoGaps (first : Piece) : List Piece :=
  [.literal "begin!".toList, first, .literal "then".toList, .gap, .literal "end!".toList]

def twoGapsMatcher (first : Piece) : Matcher :=
  ⟨"begin!".toList, guarded "begin!".toList none (twoGaps first)⟩

theorem findAll_bounded_twoGaps :
    compile "free" (twoGaps .gap) = .ok (twoGapsMatcher .gap)
      ∧ compile "bound" (twoGaps (.gapWithin 2)) = .ok (twoGapsMatcher (.gapWithin 2))
      ∧ (twoGapsMatcher .gap).findAll "begin!\nthen\nend!".toList = [⟨0, 16⟩]
      ∧ (twoGapsMatcher (.gapWithin 2)).findAll "begin!\nthen\nend!".toList = [⟨0, 16⟩] := by
  have hfree : compile "free" (twoGaps .gap) = .ok (twoGapsMatcher .gap) := rfl
  have hbound : compile "bound" (twoGaps (.gapWithin 2))
      = .ok (twoGapsMatcher (.gapWithin 2)) := rfl
  have hfound : (twoGapsMatcher .gap).findAll "begin!\nthen\nend!".toList = [⟨0, 16⟩] := by decide
  have hcount : "begin!\nthen\nend!".toList.count '\n' ≤ 2 := by decide
  have hbounds : List.Forall₂ (Piece.Bounds 2) (twoGaps .gap) (twoGaps (.gapWithin 2)) :=
    .cons (.inl rfl) <| .cons (.inr ⟨rfl, rfl⟩) <| .cons (.inl rfl) <| .cons (.inl rfl) <|
      .cons (.inl rfl) .nil
  obtain ⟨-, hsame, -⟩ := findAll_bounded hcount hbounds hfree hbound
  exact ⟨hfree, hbound, hfound, hsame.trans hfound⟩

/-- A smaller bound is one. -/
example :
    (twoGapsMatcher (.gapWithin 0)).findAll "begin!\nthen\nend!".toList = [] := by
  decide

end Matcher

end Upkeep
