import Mathlib.Data.List.Induction
import Mathlib.Data.List.Sort
import Mathlib.Data.List.TakeWhile
import Upkeep.Pattern.Expression
import Upkeep.Proofs.Preference
import Upkeep.Proofs.Split

/-!
# What expressions reach

The expression of a piece lists the ends that a matcher reaches when it
goes back through its choices, and may list an end again and again. The
matcher of this library goes by `Piece.widths` instead. This file says
that nothing is lost: up to repetition the lists are the same, in the same
order (`Piece.eraseDups_widths_expression`).

Only one kind of expression lists more than its piece. The ways through
blank text with a line break lead over any of its breaks, the last one
first, and behind each of them run to the end of the blank text. So the
ends are new only as far as they are shorter than all before, which makes
the order of first occurrences that of the lengths
(`Expression.eraseDups_lineBreak`). The ways through a bounded gap go line
by line and meet no end twice (`Expression.widths_withinLines`).

A search takes the first of equal ends, so a whole pattern is matched by
its expression as `preferred` says (`head?_trails`). In a text, the ends of
a piece are those of the stretches it covers, in the order of preference
(`Piece.enumerates_firstEnds`).
-/

namespace Upkeep

/-! ## First occurrences -/

section FirstOccurrences

variable {l l' : List Nat}

/-- Behind a list, an element counts only if it is new. -/
theorem eraseDups_concat (l : List Nat) (a : Nat) :
    (l ++ [a]).eraseDups = if a ∈ l then l.eraseDups else l.eraseDups ++ [a] := by
  rw [List.eraseDups_append]
  by_cases ha : a ∈ l <;> simp [List.removeAll, ha, List.eraseDups_cons]

theorem eraseDups_of_nodup (h : l.Nodup) : l.eraseDups = l := by
  induction l using List.reverseRecOn with
  | nil => rfl
  | append_singleton l a ih =>
      obtain ⟨hl, -, hne⟩ := List.nodup_append.mp h
      have ha : a ∉ l := fun hmem => hne a hmem a (List.mem_singleton_self a) rfl
      rw [eraseDups_concat, if_neg ha, ih hl]

theorem eraseDups_map_add (k : Nat) (l : List Nat) :
    (l.map (k + ·)).eraseDups = l.eraseDups.map (k + ·) := by
  induction l using List.reverseRecOn with
  | nil => rfl
  | append_singleton l a ih =>
      rw [List.map_append, List.map_singleton, eraseDups_concat, eraseDups_concat, ih]
      by_cases ha : a ∈ l <;> simp [ha]

/-- A list that starts with what another has adds only its own end. -/
theorem eraseDups_append_of_prefix (h : l.eraseDups <+: l') (hnodup : l'.Nodup) :
    (l ++ l').eraseDups = l' := by
  obtain ⟨r, rfl⟩ := h
  obtain ⟨-, hr, hne⟩ := List.nodup_append.mp hnodup
  have hnew : (l.eraseDups ++ r).removeAll l = r := by
    have hold : l.eraseDups.filter (fun x => !l.elem x) = [] := by simp
    have hback : r.filter (fun x => !l.elem x) = r := by
      rw [List.filter_eq_self]
      intro a ha
      have hl : a ∉ l := fun hmem => hne a (List.mem_eraseDups.mpr hmem) a ha rfl
      simpa using hl
    rw [List.removeAll, List.filter_append, hold, hback, List.nil_append]
  rw [List.eraseDups_append, hnew, eraseDups_of_nodup hr]

/-- A search takes the first of an element's occurrences. -/
theorem findSome?_eraseDups {α : Type} (f : Nat → Option α) (l : List Nat) :
    l.eraseDups.findSome? f = l.findSome? f := by
  induction l using List.reverseRecOn with
  | nil => rfl
  | append_singleton l a ih =>
      rw [eraseDups_concat, List.findSome?_append]
      by_cases ha : a ∈ l
      · rw [if_pos ha, ih]
        cases hfound : l.findSome? f with
        | some b => rfl
        | none => simp [List.findSome?_eq_none_iff.mp hfound a ha]
      · rw [if_neg ha, List.findSome?_append, ih]

end FirstOccurrences

/-! ## Numbers in falling order -/

namespace Piece

theorem map_add_downTo (low high : Nat) :
    (downTo low high).map (1 + ·) = downTo (low + 1) (high + 1) := by
  refine List.Pairwise.eq_of_mem_iff (r := (· > ·)) ?_ (pairwise_downTo _ _) ?_
  · rw [List.pairwise_map]
    exact (pairwise_downTo low high).imp fun h => Nat.add_lt_add_left h 1
  · intro w
    simp only [List.mem_map, mem_downTo]
    constructor
    · rintro ⟨v, hv, rfl⟩
      omega
    · intro hw
      exact ⟨w - 1, by omega, by omega⟩

/-- Falling numbers are cut in two behind any of them. -/
theorem downTo_append {low mid high : Nat} (hlow : low ≤ mid + 1) (hhigh : mid ≤ high) :
    downTo (mid + 1) high ++ downTo low mid = downTo low high := by
  refine List.Pairwise.eq_of_mem_iff (r := (· > ·)) ?_ (pairwise_downTo _ _) ?_
  · refine List.pairwise_append.mpr ⟨pairwise_downTo _ _, pairwise_downTo _ _, ?_⟩
    intro w hw v hv
    have hfront := mem_downTo.mp hw
    have hback := mem_downTo.mp hv
    omega
  · intro w
    simp only [List.mem_append, mem_downTo]
    omega

theorem nodup_downTo (low high : Nat) : (downTo low high).Nodup :=
  (pairwise_downTo low high).imp fun h => Nat.ne_of_gt h

end Piece

/-! ## Steps -/

namespace Step

variable {a b : Step} {p : Place}

theorem andThen_assoc (a b c : Step) : (a.andThen b).andThen c = a.andThen (b.andThen c) := by
  funext p
  simp only [andThen, List.flatMap_assoc, List.map_flatMap, List.flatMap_map, List.map_map]
  refine List.flatMap_congr fun w _ => List.flatMap_congr fun v _ => ?_
  rw [Place.skip_skip]
  refine List.map_congr_left fun u _ => ?_
  exact Nat.add_assoc w v u

theorem andThen_of_nil (h : a p = []) : a.andThen b p = [] := by
  rw [andThen, h, List.flatMap_nil]

theorem andThen_of_singleton {w : Nat} (h : a p = [w]) :
    a.andThen b p = (b (p.skip w)).map (w + ·) := by
  rw [andThen, h, List.flatMap_singleton]

theorem andThen_of_zero (h : a p = [0]) : a.andThen b p = b p := by
  rw [andThen_of_singleton h, Place.skip_zero]
  simp

/-- What follows where a lazy repetition stops at once comes first. -/
theorem andThen_of_stay {onward : Step} (h : a p = orStay true (onward p)) :
    a.andThen b p = b p ++ onward.andThen b p := by
  rw [andThen, h, orStay, if_pos rfl, List.flatMap_cons, Place.skip_zero]
  simp [andThen]

end Step

/-! ## Repeated signs -/

namespace Expression

/-- The widths up to and including `n`, the least first if a repetition is
lazy. -/
def stays (lazy : Bool) (n : Nat) : List Nat := if lazy then List.range (n + 1) else Piece.downTo 0 n

theorem orStay_stays (lazy : Bool) (n : Nat) :
    Step.orStay lazy ((stays lazy n).map (1 + ·)) = stays lazy (n + 1) := by
  cases lazy with
  | false =>
      show (Piece.downTo 0 n).map (1 + ·) ++ Piece.downTo 0 0 = Piece.downTo 0 (n + 1)
      rw [Piece.map_add_downTo, Piece.downTo_append (Nat.zero_le _) (Nat.zero_le _)]
  | true =>
      show 0 :: (List.range (n + 1)).map (1 + ·) = List.range (n + 1 + 1)
      rw [Nat.add_comm (n + 1) 1, List.range_add (n := 1)]
      rfl

variable {s : Sign} {lazy : Bool} {before : Option Char} {c : Char} {t : Text}

theorem widths_sign_of_accepts (h : s.accepts c = true) :
    (sign s).widths ⟨before, c :: t⟩ = [1] := by
  simp [widths, h]

theorem widths_sign_of_not (h : s.accepts c = false) :
    (sign s).widths ⟨before, c :: t⟩ = [] := by
  simp [widths, h]

theorem widths_signs (lazy : Bool) (s : Sign) (p : Place) :
    (signs lazy s).widths p = Step.many lazy (sign s).widths p := rfl

theorem widths_signs_nil : (signs lazy s).widths ⟨before, []⟩ = [0] := by
  rw [widths_signs, Step.many]
  cases lazy <;> rfl

theorem widths_signs_of_not (h : s.accepts c = false) :
    (signs lazy s).widths ⟨before, c :: t⟩ = [0] := by
  rw [widths_signs, Step.many, widths_sign_of_not h]
  cases lazy <;> rfl

theorem widths_signs_of_accepts (h : s.accepts c = true) :
    (signs lazy s).widths ⟨before, c :: t⟩ =
      Step.orStay lazy (((signs lazy s).widths ⟨some c, t⟩).map (1 + ·)) := by
  rw [widths_signs, Step.many, widths_sign_of_accepts h, List.flatMap_singleton,
    if_pos (by simp)]
  rfl

/-- **A repeated sign** covers any front of the run of accepted characters. -/
theorem widths_signs_eq (p : Place) :
    (signs lazy s).widths p = stays lazy (p.rest.takeWhile s.accepts).length := by
  obtain ⟨before, t⟩ := p
  induction t generalizing before with
  | nil =>
      rw [widths_signs_nil]
      cases lazy <;> rfl
  | cons c t ih =>
      cases hc : s.accepts c with
      | false =>
          rw [widths_signs_of_not hc, List.takeWhile_cons_of_neg (by simp [hc])]
          cases lazy <;> rfl
      | true =>
          rw [widths_signs_of_accepts hc, ih, orStay_stays, List.takeWhile_cons_of_pos hc,
            List.length_cons]

/-- What follows a repeated sign is tried behind the run first, and before
its first character last. -/
theorem andThen_signs_of_accepts (h : s.accepts c = true) (b : Step) :
    (signs false s).widths.andThen b ⟨before, c :: t⟩ =
      ((signs false s).widths.andThen b ⟨some c, t⟩).map (1 + ·) ++ b ⟨before, c :: t⟩ := by
  have hmap : ∀ w, (b (Place.skip ⟨before, c :: t⟩ (1 + w))).map (1 + w + ·)
      = ((b (Place.skip ⟨some c, t⟩ w)).map (w + ·)).map (1 + ·) := by
    intro w
    rw [Nat.add_comm 1 w, Place.skip, List.map_map]
    refine List.map_congr_left fun v _ => ?_
    show w + 1 + v = 1 + (w + v)
    omega
  rw [Step.andThen, widths_signs_of_accepts h]
  simp only [Step.orStay, Bool.false_eq_true, if_false, List.flatMap_append,
    List.flatMap_singleton, List.flatMap_map, hmap, Place.skip_zero, Step.andThen,
    List.map_flatMap, Nat.zero_add, List.map_id']

theorem andThen_signs_of_not (h : s.accepts c = false) (b : Step) :
    (signs false s).widths.andThen b ⟨before, c :: t⟩ = b ⟨before, c :: t⟩ :=
  Step.andThen_of_zero (widths_signs_of_not h)

theorem andThen_signs_nil (b : Step) :
    (signs false s).widths.andThen b ⟨before, []⟩ = b ⟨before, []⟩ :=
  Step.andThen_of_zero widths_signs_nil

/-! ## Blank text with a line break -/

theorem blanks_widths (p : Place) :
    blanks.widths p = Piece.downTo 0 (p.rest.takeWhile Text.isBlank).length :=
  widths_signs_eq p

/-- A line break and the blank characters behind it. -/
theorem widths_newLine_blanks (before : Option Char) (c : Char) (t : Text) :
    (follow (.sign .newLine) blanks).widths ⟨before, c :: t⟩ =
      if c = '\n' then Piece.downTo 1 ((t.takeWhile Text.isBlank).length + 1) else [] := by
  by_cases hc : c = '\n'
  · have hone : (sign .newLine).widths ⟨before, c :: t⟩ = [1] :=
      widths_sign_of_accepts (by simpa [Sign.accepts] using hc)
    rw [if_pos hc, widths, Step.andThen_of_singleton hone, blanks_widths, Piece.map_add_downTo]
    rfl
  · have hnone : (sign .newLine).widths ⟨before, c :: t⟩ = [] :=
      widths_sign_of_not (by simpa [Sign.accepts] using hc)
    rw [if_neg hc, widths, Step.andThen_of_nil hnone]

/-- **Blank text with a line break** is reached longest first. The same end
is reached once for every line break in front of it. By induction on the
text: the ends that are new at a line break are the shorter ones. -/
theorem eraseDups_lineBreak (p : Place) :
    (Piece.lineBreak.expression.widths p).eraseDups = Piece.lineBreak.widths p := by
  obtain ⟨before, t⟩ := p
  induction t generalizing before with
  | nil =>
      show (blanks.widths.andThen _ ⟨before, []⟩).eraseDups = _
      rw [blanks, andThen_signs_nil]
      rfl
  | cons c t ih =>
      show (blanks.widths.andThen (follow (.sign .newLine) blanks).widths _).eraseDups = _
      cases hc : Text.isBlank c with
      | false =>
          have hstop : Sign.blank.accepts c = false := hc
          have hne : c ≠ '\n' := by
            rintro rfl
            exact absurd hc (by decide)
          rw [blanks, andThen_signs_of_not hstop, ← blanks, widths_newLine_blanks, if_neg hne]
          simp [Piece.widths, hc, Piece.downTo]
      | true =>
          have hpass : Sign.blank.accepts c = true := hc
          have hrest : (blanks.widths.andThen (follow (.sign .newLine) blanks).widths
              ⟨some c, t⟩).eraseDups = _ := ih (some c)
          rw [blanks, andThen_signs_of_accepts hpass, ← blanks, widths_newLine_blanks]
          simp only [Piece.widths, List.takeWhile_cons_of_pos hc, List.length_cons] at hrest ⊢
          by_cases hnew : c = '\n'
          · rw [if_pos hnew, eraseDups_append_of_prefix ?_ (Piece.nodup_downTo _ _)]
            · simp [hnew]
            · have hle := length_takeWhile_le (fun c => decide (c ≠ '\n')) (t.takeWhile Text.isBlank)
              rw [eraseDups_map_add, hrest, Piece.map_add_downTo,
                ← Piece.downTo_append (Nat.le_add_left _ _) (Nat.succ_le_succ hle)]
              exact List.prefix_append _ _
          · rw [if_neg hnew, List.append_nil, eraseDups_map_add, hrest, Piece.map_add_downTo,
              List.takeWhile_cons_of_pos (by simpa using hnew)]
            rfl

/-- The ways lead over the second line break, and then over the first. -/
example : Piece.lineBreak.expression.endsFrom "a \n\n\tb".toList 1 = [5, 4, 5, 4, 3] := by
  cbv

/-! ## Text within a number of lines -/

theorem length_takeWhile_inLine (t : Text) :
    (t.takeWhile Sign.inLine.accepts).length = Piece.reach 0 t := by
  induction t with
  | nil => rfl
  | cons c t ih => by_cases hc : c = '\n' <;> simp [Sign.accepts, Piece.reach, hc, ← ih]

/-- The characters of the first line. -/
theorem widths_inLine (lazy : Bool) (p : Place) :
    (signs lazy .inLine).widths p = stays lazy (Piece.reach 0 p.rest) := by
  rw [widths_signs_eq, length_takeWhile_inLine]

theorem widths_line (p : Place) :
    line.widths p = if '\n' ∈ p.rest then [Piece.reach 0 p.rest + 1] else [] := by
  obtain ⟨before, t⟩ := p
  induction t generalizing before with
  | nil =>
      show (signs false .inLine).widths.andThen _ _ = _
      rw [andThen_signs_nil]
      rfl
  | cons c t ih =>
      show (signs false .inLine).widths.andThen (sign .newLine).widths _ = _
      by_cases hc : c = '\n'
      · have hstop : Sign.inLine.accepts c = false := by simpa [Sign.accepts] using hc
        have hbreak : Sign.newLine.accepts c = true := by simpa [Sign.accepts] using hc
        rw [andThen_signs_of_not hstop, widths_sign_of_accepts hbreak]
        simp [hc, Piece.reach]
      · have hpass : Sign.inLine.accepts c = true := by simpa [Sign.accepts] using hc
        have hbreak : Sign.newLine.accepts c = false := by simpa [Sign.accepts] using hc
        have hrest : (signs false .inLine).widths.andThen (sign .newLine).widths ⟨some c, t⟩ = _ :=
          ih (some c)
        rw [andThen_signs_of_accepts hpass, widths_sign_of_not hbreak, hrest]
        by_cases hmem : '\n' ∈ t
        · simp [hmem, Piece.reach, hc, Nat.add_comm 1]
        · simp [hmem, Ne.symm hc]

/-- With one more line break, the first line and what is reached behind it. -/
theorem reach_succ (n : Nat) (t : Text) :
    Piece.reach (n + 1) t =
      if '\n' ∈ t then Piece.reach 0 t + 1 + Piece.reach n (t.drop (Piece.reach 0 t + 1))
      else Piece.reach 0 t := by
  induction t with
  | nil => rfl
  | cons c t ih =>
      by_cases hc : c = '\n'
      · simp [Piece.reach, hc, Nat.add_comm 1]
      · by_cases hmem : '\n' ∈ t
        · simp [Piece.reach, hc, hmem, ih]
          omega
        · simp [Piece.reach, hc, hmem, ih, Ne.symm hc]

/-- **Text within a number of lines** is reached shortest first, and every
end once. By induction on the number of lines: the first line is passed
character by character before a line break is. -/
theorem widths_withinLines (n : Nat) (p : Place) :
    (withinLines n).widths p = List.range (Piece.reach n p.rest + 1) := by
  induction n generalizing p with
  | zero =>
      have hstay : Step.upTo true (group .plain line).widths 0 p = [0] := rfl
      show Step.andThen (Step.upTo true (group .plain line).widths 0) _ p = _
      rw [Step.andThen_of_zero hstay, widths_inLine]
      rfl
  | succ n ih =>
      have hassoc : (line.widths.andThen (Step.upTo true line.widths n)).andThen
          (signs true .inLine).widths = line.widths.andThen (withinLines n).widths :=
        Step.andThen_assoc ..
      show Step.andThen (Step.upTo true line.widths (n + 1)) (signs true .inLine).widths p = _
      rw [Step.andThen_of_stay rfl, hassoc, widths_inLine, reach_succ]
      by_cases hmem : '\n' ∈ p.rest
      · have hline : line.widths p = [Piece.reach 0 p.rest + 1] := by rw [widths_line, if_pos hmem]
        rw [Step.andThen_of_singleton hline, ih, Place.rest_skip, if_pos hmem, Nat.add_assoc _ _ 1,
          List.range_add (n := Piece.reach 0 p.rest + 1)]
        rfl
      · have hline : line.widths p = [] := by rw [widths_line, if_neg hmem]
        rw [Step.andThen_of_nil hline, List.append_nil, if_neg hmem]
        rfl

end Expression

/-! ## All pieces -/

namespace Piece

/-- All expressions but one list no more than their pieces. -/
theorem widths_expression {piece : Piece} (h : piece ≠ lineBreak) (p : Place) :
    piece.expression.widths p = piece.widths p := by
  cases piece with
  | literal t => rfl
  | keyword w =>
      simp only [expression, Expression.widths, Step.andThen, widths]
      cases hfront : p.atBoundary with
      | false => simp
      | true =>
          by_cases hword : w <+: p.rest
          · cases hback : (p.skip w.length).atBoundary <;> simp [hword, hback]
          · simp [hword]
  | optional t =>
      show Step.orStay false ((Expression.text t).widths.andThen (fun _ => [0]) p) = _
      simp only [Expression.widths, Step.andThen, widths]
      cases t.isPrefixOf p.rest <;> rfl
  | space => exact Expression.blanks_widths p
  | someSpace =>
      show (Expression.sign .blank).widths.andThen Expression.blanks.widths p = _
      obtain ⟨before, t⟩ := p
      cases t with
      | nil => rfl
      | cons c t =>
          cases hc : Text.isBlank c with
          | false =>
              have hstop : Sign.blank.accepts c = false := hc
              rw [Step.andThen_of_nil (Expression.widths_sign_of_not hstop)]
              simp [widths, hc, downTo]
          | true =>
              have hpass : Sign.blank.accepts c = true := hc
              rw [Step.andThen_of_singleton (Expression.widths_sign_of_accepts hpass),
                Expression.blanks_widths, map_add_downTo]
              simp only [widths, List.takeWhile_cons_of_pos hc]
              rfl
  | lineBreak => exact absurd rfl h
  | gap =>
      show (Expression.signs true .any).widths p = _
      have hall : p.rest.takeWhile Sign.any.accepts = p.rest := by
        rw [List.takeWhile_eq_self_iff]
        exact fun _ _ => rfl
      rw [Expression.widths_signs_eq, hall]
      rfl
  | gapWithin n => exact Expression.widths_withinLines n p

theorem nodup_widths {piece : Piece} (h : piece ≠ optional []) (p : Place) :
    (piece.widths p).Nodup := by
  refine (pairwise_widths h p).imp ?_
  rintro w v hw rfl
  exact precedes_asymm hw hw

/-- **An expression reaches the widths of its piece**, in their order. -/
theorem eraseDups_widths_expression (piece : Piece) (p : Place) :
    (piece.expression.widths p).eraseDups = (piece.widths p).eraseDups := by
  by_cases h : piece = lineBreak
  · subst h
    rw [Expression.eraseDups_lineBreak, eraseDups_of_nodup (nodup_widths (by simp) p)]
  · rw [widths_expression h]

end Piece

/-! ## Whole patterns -/

/-- The ways in which the expression of a pattern can be matched, in the
order in which they are tried. Each is told by the widths that it gives to
the pieces, the captured gaps among them. -/
def trails : Place → List Piece → List (List Nat)
  | _, [] => [[]]
  | p, piece :: pieces =>
      (piece.expression.widths p).flatMap fun w => (trails (p.skip w) pieces).map (w :: ·)

/-- They end where the expression of the whole pattern does. -/
theorem map_parseWidth_trails (p : Place) (pieces : List Piece) :
    (trails p pieces).map parseWidth = (Expression.ofPieces pieces).widths p := by
  induction pieces generalizing p with
  | nil => rfl
  | cons piece pieces ih =>
      rw [trails, List.map_flatMap, Expression.ofPieces, Expression.widths, Step.andThen]
      refine List.flatMap_congr fun w _ => ?_
      rw [← ih, List.map_map, List.map_map]
      rfl

/-- **The preferred parse** is the first match of the expression. -/
theorem head?_trails (p : Place) (pieces : List Piece) :
    (trails p pieces).head? = preferred p pieces := by
  induction pieces generalizing p with
  | nil => rfl
  | cons piece pieces ih =>
      rw [trails, List.head?_flatMap, preferred, ← findSome?_eraseDups,
        Piece.eraseDups_widths_expression, findSome?_eraseDups]
      simp only [List.head?_map, ih]

/-! ## Ends in a text -/

/-- `es` lists the numbers with a property in a strict order, and so each
of them once. -/
structure Enumerates (before : Nat → Nat → Prop) (q : Nat → Prop) (es : List Nat) : Prop where
  mem_iff : ∀ e, e ∈ es ↔ q e
  ordered : es.Pairwise before

namespace Piece

variable {t : Text} {p : Nat}

theorem precedes_of_isGap {piece : Piece} (h : piece.isGap = true) :
    piece.precedes = (· < ·) := by
  funext w v
  rw [precedes, if_pos h]

theorem precedes_of_not_isGap {piece : Piece} (h : piece.isGap = false) :
    piece.precedes = (· > ·) := by
  funext w v
  rw [precedes, if_neg (by simp [h])]

theorem precedes_add {piece : Piece} {w v : Nat} (h : piece.precedes w v) (k : Nat) :
    piece.precedes (k + w) (k + v) := by
  unfold precedes at *
  split <;> simp_all

theorem pairwise_eraseDups_widths (piece : Piece) (q : Place) :
    (piece.widths q).eraseDups.Pairwise piece.precedes := by
  by_cases h : piece = optional []
  · subst h
    exact List.pairwise_singleton _ 0
  · rw [eraseDups_of_nodup (nodup_widths h q)]
    exact pairwise_widths h q

theorem mem_ends {piece : Piece} {e : Nat} (hp : p ≤ t.length) :
    e ∈ (piece.widths ((Place.start t).skip p)).map (p + ·) ↔
      p ≤ e ∧ e ≤ t.length ∧ piece.Covers (t.extract p e) ∧ piece.SetApart t p e := by
  have hrest : ((Place.start t).skip p).rest = t.drop p := Place.rest_skip _ _
  simp only [List.mem_map, mem_widths, hrest, List.length_drop, List.extract_eq_take_drop]
  constructor
  · rintro ⟨w, ⟨hw, hcov, hbound⟩, rfl⟩
    rw [Nat.add_sub_cancel_left]
    have hend : p + w ≤ t.length := by omega
    exact ⟨Nat.le_add_right p w, hend, hcov, (setApart_iff hend).mpr hbound⟩
  · rintro ⟨hpe, he, hcov, hapart⟩
    obtain ⟨w, rfl⟩ := Nat.exists_eq_add_of_le hpe
    rw [Nat.add_sub_cancel_left] at hcov
    exact ⟨w, ⟨by omega, hcov, (setApart_iff he).mp hapart⟩, rfl⟩

theorem firstEnds_eraseDups (piece : Piece) (t : Text) (p : Nat) :
    piece.expression.firstEnds t p
      = (piece.widths ((Place.start t).skip p)).eraseDups.map (p + ·) := by
  rw [Expression.firstEnds, Expression.endsFrom, eraseDups_map_add, eraseDups_widths_expression]

theorem firstEnds_expression {piece : Piece} (h : piece ≠ optional []) (t : Text) (p : Nat) :
    piece.expression.firstEnds t p = (piece.widths ((Place.start t).skip p)).map (p + ·) := by
  rw [firstEnds_eraseDups, eraseDups_of_nodup (nodup_widths h _)]

theorem endsFrom_expression {piece : Piece} (h : piece ≠ lineBreak) (t : Text) (p : Nat) :
    piece.expression.endsFrom t p = (piece.widths ((Place.start t).skip p)).map (p + ·) :=
  congrArg (List.map (p + ·)) (widths_expression h _)

/-- **The expression of a piece reaches** the ends of the stretches that the
piece covers: those of a gap from the nearest on, all others from the
farthest on. -/
theorem enumerates_firstEnds (piece : Piece) (hp : p ≤ t.length) :
    Enumerates piece.precedes
      (fun e => p ≤ e ∧ e ≤ t.length ∧ piece.Covers (t.extract p e) ∧ piece.SetApart t p e)
      (piece.expression.firstEnds t p) := by
  rw [firstEnds_eraseDups]
  constructor
  · intro e
    rw [← mem_ends hp]
    simp only [List.mem_map, List.mem_eraseDups]
  · rw [List.pairwise_map]
    exact (piece.pairwise_eraseDups_widths _).imp fun h => precedes_add h p

end Piece

namespace Expression

variable {t : Text} {p : Nat}

theorem written_gapWithin (n : Nat) :
    (Piece.gapWithin n).expression.written
      = "((?:[^\\n]*\\n)\x7b0,".toList ++ n.repr.toList ++ "\x7d?[^\\n]*?)".toList := by
  show "(".toList ++ ("(?:[^\\n]*\\n)".toList
    ++ ("\x7b0,".toList ++ n.repr.toList ++ "\x7d".toList) ++ "?".toList
    ++ "[^\\n]*?".toList) ++ ")".toList = _
  simp only [List.append_assoc]
  rfl

/-- **The composite pieces reach what they are meant to.** From character
`p` of a text, in order of first preference: blank text with a line break
among it, the longest first; and text with at most `n` line breaks, the
shortest first and no end twice. The matcher goes by the same ends. -/
theorem ends_composite (hp : p ≤ t.length) (n : Nat) :
    (Piece.lineBreak.expression.written = "\\s*\\n\\s*".toList
      ∧ Enumerates (· > ·)
          (fun e => p ≤ e ∧ e ≤ t.length ∧ (∀ c ∈ t.extract p e, Text.isBlank c = true)
            ∧ '\n' ∈ t.extract p e)
          (Piece.lineBreak.expression.firstEnds t p)
      ∧ Piece.lineBreak.expression.firstEnds t p
          = (Piece.lineBreak.widths ((Place.start t).skip p)).map (p + ·))
    ∧ ((Piece.gapWithin n).expression.written
        = "((?:[^\\n]*\\n)\x7b0,".toList ++ n.repr.toList ++ "\x7d?[^\\n]*?)".toList
      ∧ Enumerates (· < ·)
          (fun e => p ≤ e ∧ e ≤ t.length ∧ (t.extract p e).count '\n' ≤ n)
          ((Piece.gapWithin n).expression.endsFrom t p)
      ∧ (Piece.gapWithin n).expression.endsFrom t p
          = ((Piece.gapWithin n).widths ((Place.start t).skip p)).map (p + ·)) := by
  have hbreak := Piece.enumerates_firstEnds .lineBreak hp
  have hgap := Piece.enumerates_firstEnds (.gapWithin n) hp
  have hbreakEnds : Piece.lineBreak.expression.firstEnds t p = _ :=
    Piece.firstEnds_expression (by simp) t p
  have hgapEnds : (Piece.gapWithin n).expression.endsFrom t p = _ :=
    Piece.endsFrom_expression (by simp) t p
  -- the ends of a gap are listed once as they are
  rw [Piece.firstEnds_expression (by simp), ← hgapEnds, Piece.precedes_of_isGap rfl] at hgap
  rw [Piece.precedes_of_not_isGap rfl] at hbreak
  simp only [Piece.Covers, Piece.SetApart, and_true] at hbreak hgap
  exact ⟨⟨rfl, hbreak, hbreakEnds⟩, written_gapWithin n, hgap, hgapEnds⟩

theorem ends_composite_blankLine :
    1 ≤ "a \n\n\tb".toList.length
      ∧ Piece.lineBreak.expression.firstEnds "a \n\n\tb".toList 1 = [5, 4, 3]
      ∧ (Piece.gapWithin 1).expression.endsFrom "a \n\n\tb".toList 1 = [1, 2, 3] := by
  have hp : 1 ≤ "a \n\n\tb".toList.length := by decide
  obtain ⟨⟨-, -, hbreak⟩, -, -, hgap⟩ := ends_composite hp 1
  rw [hbreak, hgap]
  decide

end Expression

end Upkeep
