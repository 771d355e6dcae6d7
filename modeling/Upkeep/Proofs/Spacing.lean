import Upkeep.Proofs.Split

/-!
# Keywords that are set apart by themselves

A keyword asks for word boundaries in the text around it. In many patterns
they are there anyway: the keyword stands between blanks, or beside a
literal that starts or ends with a character of no word. `isSpaced`
recognises such patterns from their pieces alone, and every list of
stretches that such a pattern covers is a split, wherever it stands
(`split_of_covers`).
-/

namespace Upkeep

namespace Text

/-- The code points of the blank characters. -/
def blankCodes : List Nat :=
  [9, 10, 11, 12, 13, 0x20, 0x85, 0xA0, 0x1680, 0x2000, 0x2001, 0x2002, 0x2003, 0x2004, 0x2005,
   0x2006, 0x2007, 0x2008, 0x2009, 0x200A, 0x2028, 0x2029, 0x202F, 0x205F, 0x3000]

theorem toNat_mem_blankCodes {c : Char} (h : isBlank c = true) : c.toNat ∈ blankCodes := by
  simp only [isBlank, Bool.or_eq_true, Bool.and_eq_true, decide_eq_true_eq, beq_iff_eq] at h
  simp only [blankCodes, List.mem_cons, List.not_mem_nil, or_false]
  omega

theorem isWord_of_isBlank {c : Char} (h : isBlank c = true) : isWord c = false := by
  have hcodes : ∀ n ∈ blankCodes,
      (if n < 0x80 then isAsciiWord n else inRanges n wideWordRanges) = false := by
    decide +kernel
  exact hcodes _ (toNat_mem_blankCodes h)

/-- The character before the end of a stretch is its last one, or the one
before an empty stretch. -/
theorem before?_add {t x : Text} {n : Nat} (hx : x <+: t.drop n) :
    t.before? (n + x.length) = x.getLast?.or (t.before? n) := by
  obtain ⟨r, hr⟩ := hx
  by_cases hne : x = []
  · subst hne
    rfl
  · have hpos : 0 < x.length := List.length_pos_iff.mpr hne
    have hchar : t[n + (x.length - 1)]? = x.getLast? := by
      rw [← List.getElem?_drop, ← hr, List.getElem?_append_left (by omega),
        List.getLast?_eq_getElem?]
    rw [before?, if_neg (by omega), Nat.add_sub_assoc hpos, hchar,
      List.getLast?_eq_some_getLast hne]
    rfl

/-- Where a text stands in another one. -/
theorem stands_iff {t x : Text} {s : Nat} :
    (∃ front back, t = front ++ x ++ back ∧ s = front.length) ↔
      s ≤ t.length ∧ x <+: t.drop s := by
  constructor
  · rintro ⟨front, back, rfl, rfl⟩
    refine ⟨?_, ?_⟩
    · simp only [List.length_append]
      omega
    · rw [List.append_assoc, List.drop_left]
      exact List.prefix_append x back
  · rintro ⟨hs, back, hback⟩
    refine ⟨t.take s, back, ?_, ?_⟩
    · rw [List.append_assoc, hback, List.take_append_drop]
    · rw [List.length_take, Nat.min_eq_left hs]

theorem prefix_behind {t x y : Text} {n : Nat} (h : x ++ y <+: t.drop n) :
    y <+: t.drop (n + x.length) := by
  obtain ⟨z, hz⟩ := h
  rw [← List.drop_drop, ← hz, List.append_assoc, List.drop_left]
  exact List.prefix_append y z

theorem getElem?_of_prefix {t x : Text} {n : Nat} (hx : x <+: t.drop n) (hne : x ≠ []) :
    t[n]? = x.head? := by
  obtain ⟨r, hr⟩ := hx
  obtain ⟨c, x, rfl⟩ := List.exists_cons_of_ne_nil hne
  have hchar : t[n + 0]? = some c := by
    rw [← List.getElem?_drop, ← hr]
    rfl
  exact hchar

end Text

/-! ## Spaced patterns -/

namespace Piece

/-- Behind the piece stands a character of no word, or none at all.
`free` tells whether that is so before it. -/
def leavesFree (free : Bool) : Piece → Bool
  | literal t | keyword t => (t.getLast?.map (!Text.isWord ·)).getD free
  | optional t => free && (t.getLast?.map (!Text.isWord ·)).getD free
  | space => free
  | someSpace | lineBreak => true
  | gap | gapWithin _ => false

/-- What the pieces cover starts with a character of no word. -/
def opensFree : List Piece → Bool
  | literal t :: _ => t.head?.any (!Text.isWord ·)
  | optional t :: pieces => t.head?.all (!Text.isWord ·) && opensFree pieces
  | space :: pieces => opensFree pieces
  | someSpace :: _ | lineBreak :: _ => true
  | _ => false

/-- A keyword starts and ends like a word, and the characters beside it
belong to none. -/
def isFramed (free : Bool) (pieces : List Piece) : Piece → Bool
  | keyword w => free && w.head?.any Text.isWord && w.getLast?.any Text.isWord && opensFree pieces
  | _ => true

/-- All keywords are framed. -/
def isSpaced (free : Bool) : List Piece → Bool
  | [] => true
  | piece :: pieces => piece.isFramed free pieces && isSpaced (piece.leavesFree free) pieces

theorem wordBeside_getLast {t : Text} {b : Option Char} {free : Bool}
    (hb : free = true → Text.wordBeside b = false)
    (h : (t.getLast?.map (!Text.isWord ·)).getD free = true) :
    Text.wordBeside (t.getLast?.or b) = false := by
  cases hlast : t.getLast? with
  | none =>
      rw [hlast] at h
      exact hb h
  | some c =>
      rw [hlast] at h
      simpa [Text.wordBeside] using h

theorem wordBeside_of_any {o : Option Char} (h : o.any Text.isWord = true) (b : Option Char) :
    Text.wordBeside (o.or b) = true := by
  cases o with
  | none => cases h
  | some c => exact h

theorem wordBeside_blank {x : Text} {b : Option Char}
    (hx : ∀ c ∈ x, Text.isBlank c = true) (hb : x = [] → Text.wordBeside b = false) :
    Text.wordBeside (x.getLast?.or b) = false := by
  cases hlast : x.getLast? with
  | none => exact hb (List.getLast?_eq_none_iff.mp hlast)
  | some c => exact Text.isWord_of_isBlank (hx c (List.mem_of_getLast? hlast))

theorem wordBeside_of_leavesFree {piece : Piece} {x : Text} {b : Option Char} {free : Bool}
    (hb : free = true → Text.wordBeside b = false) (hcov : piece.Covers x)
    (h : piece.leavesFree free = true) : Text.wordBeside (x.getLast?.or b) = false := by
  cases piece with
  | literal t =>
      obtain rfl : x = t := hcov
      exact wordBeside_getLast hb h
  | keyword t =>
      obtain rfl : x = t := hcov
      exact wordBeside_getLast hb h
  | optional t =>
      obtain ⟨hfree, hlast⟩ := Bool.and_eq_true _ _ |>.mp h
      rcases hcov with rfl | rfl
      · exact wordBeside_getLast hb hlast
      · exact hb hfree
  | space => exact wordBeside_blank hcov fun _ => hb h
  | someSpace => exact wordBeside_blank hcov.1 fun hx => absurd hx hcov.2
  | lineBreak =>
      refine wordBeside_blank hcov.1 ?_
      rintro rfl
      cases hcov.2
  | gap => cases h
  | gapWithin n => cases h

theorem exists_of_opensFree {pieces : List Piece} {xs : List Text}
    (hcov : List.Forall₂ Covers pieces xs) (h : opensFree pieces = true) :
    ∃ c r, xs.flatten = c :: r ∧ Text.isWord c = false := by
  have first : ∀ {x : Text} (ys : Text), x ≠ [] → (∀ c ∈ x, Text.isBlank c = true) →
      ∃ c r, x ++ ys = c :: r ∧ Text.isWord c = false := by
    intro x ys hne hx
    obtain ⟨c, r, rfl⟩ := List.exists_cons_of_ne_nil hne
    exact ⟨c, r ++ ys, rfl, Text.isWord_of_isBlank (hx c (List.mem_cons_self ..))⟩
  induction hcov with
  | nil => cases h
  | @cons piece x pieces xs hx _ ih =>
      rw [List.flatten_cons]
      cases piece with
      | literal t =>
          obtain rfl : x = t := hx
          cases x with
          | nil => cases h
          | cons c r => exact ⟨c, r ++ xs.flatten, rfl, by simpa [opensFree] using h⟩
      | optional t =>
          obtain ⟨ht, hrest⟩ := Bool.and_eq_true _ _ |>.mp h
          rcases hx with rfl | rfl
          · cases x with
            | nil => exact ih hrest
            | cons c r => exact ⟨c, r ++ xs.flatten, rfl, by simpa using ht⟩
          · exact ih hrest
      | space =>
          by_cases hne : x = []
          · subst hne
            exact ih h
          · exact first _ hne hx
      | someSpace => exact first _ hx.2 hx.1
      | lineBreak =>
          refine first _ ?_ hx.1
          rintro rfl
          cases hx.2
      | keyword t => cases h
      | gap => cases h
      | gapWithin n => cases h

theorem setApart_of_isFramed {piece : Piece} {pieces : List Piece} {t x : Text} {xs : List Text}
    {n : Nat} {free : Bool} (hb : free = true → Text.wordBeside (t.before? n) = false)
    (hx : x ++ xs.flatten <+: t.drop n) (hcov : piece.Covers x)
    (hcovs : List.Forall₂ Covers pieces xs) (h : piece.isFramed free pieces = true) :
    piece.SetApart t n (n + x.length) := by
  cases piece with
  | keyword w =>
      obtain rfl : x = w := hcov
      simp only [isFramed, Bool.and_eq_true] at h
      obtain ⟨⟨⟨hfree, hhead⟩, hlast⟩, hopens⟩ := h
      obtain ⟨c, r, hrest, hc⟩ := exists_of_opensFree hcovs hopens
      have hfront : x <+: t.drop n := (List.prefix_append x _).trans hx
      have hback : c :: r <+: t.drop (n + x.length) := hrest ▸ Text.prefix_behind hx
      have hne : x ≠ [] := by
        rintro rfl
        cases hhead
      have hstart := wordBeside_of_any hhead none
      rw [Option.or_none, ← Text.getElem?_of_prefix hfront hne] at hstart
      have hend := wordBeside_of_any hlast (t.before? n)
      rw [← Text.before?_add hfront] at hend
      have hnext : t[n + x.length]? = some c :=
        Text.getElem?_of_prefix hback (List.cons_ne_nil c r)
      refine ⟨?_, ?_⟩
      · rw [Text.boundaryAt, Text.isBoundary, hb hfree, hstart]
        rfl
      · rw [Text.boundaryAt, Text.isBoundary, hend, hnext, Text.wordBeside, hc]
        rfl
  | _ => trivial

end Piece

/-- **Stretches that a spaced pattern covers** are a split wherever they
stand. The induction is on the pieces; `free` tells whether the character
before them belongs to no word. -/
theorem split_of_covers {pieces : List Piece} {xs : List Text} {t : Text} {n : Nat} {free : Bool}
    (hcovs : List.Forall₂ Piece.Covers pieces xs) (hxs : xs.flatten <+: t.drop n)
    (hb : free = true → Text.wordBeside (t.before? n) = false)
    (h : Piece.isSpaced free pieces = true) : Split t n pieces xs := by
  induction hcovs generalizing n free with
  | nil => exact .nil n
  | @cons piece x pieces xs hcov hcovs ih =>
      obtain ⟨hframed, hspaced⟩ := Bool.and_eq_true _ _ |>.mp h
      rw [List.flatten_cons] at hxs
      have hx : x <+: t.drop n := (List.prefix_append x _).trans hxs
      refine .cons hx hcov (Piece.setApart_of_isFramed hb hxs hcov hcovs hframed) ?_
      refine ih (Text.prefix_behind hxs) ?_ hspaced
      intro hfree
      rw [Text.before?_add hx]
      exact Piece.wordBeside_of_leavesFree hb hcov hfree

end Upkeep
