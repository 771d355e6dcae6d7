import Upkeep.Pattern.Piece

/-!
# The preferred parse

A parse of a list of pieces at a place is written as the list of the
pieces' widths. Of all parses there, the *preferred* one is the first in
the lexicographic order of the pieces' preferences (`preferred`).

A text is searched at all its places, and different parses often lead the
remaining pieces to the same place. `preferredRow` therefore keeps the
preferred parses of all places of a text in one row of delayed values,
each computed at most once and only if it is asked for. A row is built
from the row of the remaining pieces, and `get_preferredRow` says that it
holds nothing but preferred parses.
-/

namespace Upkeep

/-- The widths of the preferred parse at a place, if the pieces can be
parsed there at all. -/
def preferred (p : Place) : List Piece → Option (List Nat)
  | [] => some []
  | piece :: pieces =>
      (piece.widths p).findSome? fun w => (preferred (p.skip w) pieces).map (w :: ·)

/-- The number of characters that a parse covers. -/
def parseWidth : List Nat → Nat
  | [] => 0
  | w :: ws => w + parseWidth ws

/-! ## Places -/

namespace Place

/-- A place and all places behind it. -/
def onwards (before : Option Char) : Text → List Place
  | [] => [⟨before, []⟩]
  | c :: t => ⟨before, c :: t⟩ :: onwards (some c) t

theorem getElem?_onwards (before : Option Char) (t : Text) {n : Nat} (h : n ≤ t.length) :
    (onwards before t)[n]? = some (skip ⟨before, t⟩ n) := by
  induction t generalizing before n with
  | nil =>
      obtain rfl : n = 0 := by simpa using h
      simp [onwards, skip]
  | cons c t ih =>
      cases n with
      | zero => simp [onwards, skip]
      | succ n => simpa [onwards, skip] using ih (some c) (by simpa using h)

end Place

/-! ## Widths stay within the text -/

namespace Piece

theorem reach_le (n : Nat) (t : Text) : reach n t ≤ t.length := by
  fun_induction reach n t <;> simp_all

theorem le_of_mem_downTo {w low high : Nat} (h : w ∈ downTo low high) : w ≤ high := by
  simp [downTo] at h
  omega

theorem le_of_mem_widths {p : Place} {piece : Piece} {w : Nat} (h : w ∈ piece.widths p) :
    w ≤ p.rest.length := by
  have blank : (p.rest.takeWhile Text.isBlank).length ≤ p.rest.length :=
    (List.takeWhile_sublist _).length_le
  have front {t : Text} (ht : t.isPrefixOf p.rest = true) : t.length ≤ p.rest.length :=
    (List.isPrefixOf_iff_prefix.mp ht).length_le
  cases piece with
  | literal t =>
      simp only [widths] at h
      split at h <;> simp_all
  | keyword t =>
      simp only [widths] at h
      split at h <;> simp_all
  | optional t =>
      simp only [widths] at h
      split at h
      · have := front ‹_›
        simp at h
        omega
      · simp_all
  | space => exact Nat.le_trans (le_of_mem_downTo h) blank
  | someSpace => exact Nat.le_trans (le_of_mem_downTo h) blank
  | lineBreak => exact Nat.le_trans (le_of_mem_downTo h) blank
  | gap => simpa [widths, Nat.lt_succ_iff] using h
  | gapWithin n =>
      simp only [widths, List.mem_range, Nat.lt_succ_iff] at h
      exact Nat.le_trans h (reach_le n p.rest)

end Piece

/-! ## Rows of preferred parses -/

abbrev Delayed := Thunk (Option (List Nat))

/-- The preferred parse at a place, given those of the remaining pieces
at this place and all places behind it. -/
def extendParse (piece : Piece) (p : Place) (later : List Delayed) : Option (List Nat) :=
  (piece.widths p).findSome? fun w => (later[w]?).bind fun parse => parse.get.map (w :: ·)

/-- Put one piece in front of a row. -/
def extendRow (piece : Piece) (before : Option Char) : Text → List Delayed → List Delayed
  | [], later => [⟨fun _ => extendParse piece ⟨before, []⟩ later⟩]
  | c :: t, later =>
      ⟨fun _ => extendParse piece ⟨before, c :: t⟩ later⟩
        :: extendRow piece (some c) t later.tail

/-- The preferred parses at a place and all places behind it. -/
def preferredRow (p : Place) : List Piece → List Delayed
  | [] => List.replicate (p.rest.length + 1) (Thunk.pure (some []))
  | piece :: pieces => extendRow piece p.before p.rest (preferredRow p pieces)

theorem extendParse_eq {piece : Piece} {pieces : List Piece} {p : Place} {later : List Delayed}
    (h : later.map Thunk.get = (Place.onwards p.before p.rest).map (preferred · pieces)) :
    extendParse piece p later = preferred p (piece :: pieces) := by
  simp only [extendParse, preferred]
  have cell : ∀ w ∈ piece.widths p,
      ((later[w]?).bind fun parse => parse.get.map (w :: ·)) =
        (preferred (p.skip w) pieces).map (w :: ·) := by
    intro w hw
    have hrow : (later.map Thunk.get)[w]? = some (preferred (p.skip w) pieces) := by
      rw [h, List.getElem?_map,
        Place.getElem?_onwards p.before p.rest (Piece.le_of_mem_widths hw)]
      rfl
    rw [List.getElem?_map] at hrow
    cases hl : later[w]? with
    | none => simp [hl] at hrow
    | some parse =>
        simp only [hl, Option.map_some, Option.some.injEq] at hrow
        simp [hrow]
  clear h
  revert cell
  induction piece.widths p with
  | nil => intro _; rfl
  | cons w ws ih =>
      intro cell
      rw [List.findSome?_cons, List.findSome?_cons, cell w (by simp),
        ih fun v hv => cell v (by simp [hv])]

theorem get_extendRow {piece : Piece} {pieces : List Piece} (before : Option Char) (t : Text)
    {later : List Delayed}
    (h : later.map Thunk.get = (Place.onwards before t).map (preferred · pieces)) :
    (extendRow piece before t later).map Thunk.get =
      (Place.onwards before t).map (preferred · (piece :: pieces)) := by
  induction t generalizing before later with
  | nil =>
      simp only [extendRow, Place.onwards, List.map_cons, List.map_nil, List.cons.injEq, and_true]
      exact extendParse_eq (p := ⟨before, []⟩) h
  | cons c t ih =>
      simp only [extendRow, Place.onwards, List.map_cons, List.cons.injEq]
      refine ⟨extendParse_eq (p := ⟨before, c :: t⟩) h, ih (some c) ?_⟩
      rw [List.map_tail, h]
      rfl

/-- A row holds the preferred parses of its places. -/
theorem get_preferredRow (p : Place) (pieces : List Piece) :
    (preferredRow p pieces).map Thunk.get =
      (Place.onwards p.before p.rest).map (preferred · pieces) := by
  induction pieces with
  | nil =>
      have blank : ∀ (before : Option Char) (t : Text),
          (Place.onwards before t).map (preferred · []) =
            List.replicate (t.length + 1) (some []) := by
        intro before t
        induction t generalizing before with
        | nil => rfl
        | cons c t ih => simpa [Place.onwards, preferred, List.replicate_succ] using ih (some c)
      simp only [preferredRow, List.map_replicate, blank]
      rfl
  | cons piece pieces ih => exact get_extendRow p.before p.rest ih

end Upkeep
