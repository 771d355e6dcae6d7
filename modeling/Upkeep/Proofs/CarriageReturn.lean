import Mathlib.Data.List.Sort
import Upkeep.Proofs.Guard
import Upkeep.Proofs.Preference

/-!
# Parses of a text with carriage returns

`Text.crlf` puts a carriage return before every line feed. This file says
what becomes of the preferred parse of a pattern.

The places of a text are found again in the new one, `stretched` as far as
carriage returns stand before them. The new text has further places: one
before each line feed, behind its carriage return. Blanks and gaps may end
there, so a piece has more widths in the new text than in the old one.
With these set aside, its widths are those of the old text, stretched, and
they come in the same order (`filter_widths_crlf`).

Whether the further widths matter depends on what follows. A pattern
*ignores endings* if its texts lie within a line and if whatever stands
behind blanks or a gap cannot start with a line feed. Then the further
widths lead nowhere, and the preferred parse of the new text is that of
the old one, stretched (`preferred_crlf`).
-/

namespace Upkeep

/-! ## Texts -/

namespace Text

/-- The text with a carriage return before every line feed. -/
def crlf (t : Text) : Text := t.flatMap fun c => if c = '\n' then ['\r', '\n'] else [c]

@[simp] theorem crlf_nil : crlf [] = [] := rfl

@[simp] theorem crlf_break (t : Text) : crlf ('\n' :: t) = '\r' :: '\n' :: crlf t := rfl

theorem crlf_cons {c : Char} (h : c ≠ '\n') (t : Text) : crlf (c :: t) = c :: crlf t := by
  simp [crlf, h]

@[simp] theorem crlf_append (s t : Text) : crlf (s ++ t) = crlf s ++ crlf t := List.flatMap_append

theorem mem_crlf {c : Char} {t : Text} : c ∈ crlf t ↔ c ∈ t ∨ c = '\r' ∧ '\n' ∈ t := by
  induction t with
  | nil => simp
  | cons a t ih =>
      by_cases ha : a = '\n'
      · subst ha
        simp only [crlf_break, List.mem_cons, ih]
        tauto
      · simp only [crlf_cons ha, List.mem_cons, ih, Ne.symm ha, false_or]
        tauto

/-- A line feed has a carriage return before it. -/
theorem head?_crlf (t : Text) : (crlf t).head? ≠ some '\n' := by
  cases t with
  | nil => simp
  | cons c t =>
      by_cases hc : c = '\n'
      · subst hc
        simp
      · simpa [crlf_cons hc] using hc

theorem crlf_eq_self {t : Text} (h : '\n' ∉ t) : crlf t = t := by
  induction t with
  | nil => rfl
  | cons c t ih =>
      rw [List.mem_cons, not_or] at h
      rw [crlf_cons (Ne.symm h.1), ih h.2]

theorem crlf_injective {s t : Text} (h : crlf s = crlf t) : s = t := by
  induction s generalizing t with
  | nil =>
      cases t with
      | nil => rfl
      | cons b t => by_cases hb : b = '\n' <;> simp [hb, crlf_cons] at h
  | cons a s ih =>
      cases t with
      | nil => by_cases ha : a = '\n' <;> simp [ha, crlf_cons] at h
      | cons b t =>
          by_cases ha : a = '\n' <;> by_cases hb : b = '\n'
          · subst ha hb
            simp only [crlf_break, List.cons.injEq, true_and] at h
            rw [ih h]
          · -- behind a carriage return that was there no line feed follows
            subst ha
            rw [crlf_break, crlf_cons hb, List.cons.injEq] at h
            exact absurd (congrArg List.head? h.2.symm) (head?_crlf t)
          · subst hb
            rw [crlf_break, crlf_cons ha, List.cons.injEq] at h
            exact absurd (congrArg List.head? h.2) (head?_crlf s)
          · rw [crlf_cons ha, crlf_cons hb, List.cons.injEq] at h
            rw [h.1, ih h.2]

theorem count_crlf (t : Text) : (crlf t).count '\n' = t.count '\n' := by
  induction t with
  | nil => rfl
  | cons c t ih =>
      by_cases hc : c = '\n'
      · subst hc
        simp [ih]
      · simp [crlf_cons hc, ih, hc]

def isInline (t : Text) : Bool := t.all fun c => c != '\n' && c != '\r'

theorem isInline_iff {t : Text} : isInline t = true ↔ '\n' ∉ t ∧ '\r' ∉ t := by
  simp only [isInline, List.all_eq_true, Bool.and_eq_true, bne_iff_ne]
  constructor
  · exact fun h => ⟨fun hn => (h _ hn).1 rfl, fun hr => (h _ hr).2 rfl⟩
  · rintro ⟨hn, hr⟩ c hc
    exact ⟨fun heq => hn (heq ▸ hc), fun heq => hr (heq ▸ hc)⟩

theorem isPrefixOf_crlf {part : Text} (h : isInline part = true) (t : Text) :
    part.isPrefixOf (crlf t) = part.isPrefixOf t := by
  induction part generalizing t with
  | nil => rfl
  | cons a part ih =>
      simp only [isInline, List.all_cons, Bool.and_eq_true, bne_iff_ne] at h
      obtain ⟨⟨hn, hr⟩, hpart⟩ := h
      cases t with
      | nil => rfl
      | cons c t =>
          by_cases hc : c = '\n'
          · subst hc
            simp [List.isPrefixOf, beq_false_of_ne hn, beq_false_of_ne hr]
          · rw [crlf_cons hc, List.isPrefixOf, List.isPrefixOf, ih hpart]

/-- A text within a line occurs in the new text exactly if it occurs in
the old one. -/
theorem contains_crlf {part : Text} (h : isInline part = true) (t : Text) :
    contains part (crlf t) = contains part t := by
  induction t with
  | nil => rfl
  | cons c t ih =>
      have hfront := isPrefixOf_crlf h (c :: t)
      by_cases hc : c = '\n'
      · subst hc
        rw [crlf_break] at hfront ⊢
        rw [contains, contains, contains, ih, hfront]
        cases part with
        | nil => rfl
        | cons a part =>
            simp only [isInline, List.all_cons, Bool.and_eq_true, bne_iff_ne] at h
            simp [List.isPrefixOf, beq_false_of_ne h.1.1]
      · rw [crlf_cons hc] at hfront ⊢
        rw [contains, contains, ih, hfront]

/-! ## Stretched widths -/

/-- The width of a front of a text once the carriage returns are there. -/
def stretched (t : Text) (n : Nat) : Nat := (crlf (t.take n)).length

@[simp] theorem stretched_zero (t : Text) : stretched t 0 = 0 := by
  simp [stretched]

theorem stretched_add (t : Text) (m n : Nat) :
    stretched t (m + n) = stretched t m + stretched (t.drop m) n := by
  rw [stretched, stretched, stretched, List.take_add, crlf_append, List.length_append]

theorem stretched_break (t : Text) (n : Nat) : stretched ('\n' :: t) (n + 1) = stretched t n + 2 :=
  rfl

theorem stretched_cons {c : Char} (h : c ≠ '\n') (t : Text) (n : Nat) :
    stretched (c :: t) (n + 1) = stretched t n + 1 := by
  rw [stretched, List.take_succ_cons, crlf_cons h]
  rfl

theorem crlf_take_append_drop (t : Text) (n : Nat) :
    crlf (t.take n) ++ crlf (t.drop n) = crlf t := by
  rw [← crlf_append, List.take_append_drop]

theorem take_stretched (t : Text) (n : Nat) : (crlf t).take (stretched t n) = crlf (t.take n) := by
  rw [← crlf_take_append_drop t n]
  exact List.take_left

theorem drop_stretched (t : Text) (n : Nat) : (crlf t).drop (stretched t n) = crlf (t.drop n) := by
  rw [← crlf_take_append_drop t n]
  exact List.drop_left

theorem stretched_le (t : Text) (n : Nat) : stretched t n ≤ (crlf t).length := by
  have h := congrArg List.length (take_stretched t n)
  rw [List.length_take, ← stretched] at h
  omega

theorem stretched_pos {t : Text} {n : Nat} (ht : t ≠ []) : 0 < stretched t (n + 1) := by
  obtain ⟨c, t, rfl⟩ := List.exists_cons_of_ne_nil ht
  by_cases hc : c = '\n'
  · subst hc
    rw [stretched_break]
    omega
  · rw [stretched_cons hc]
    omega

theorem stretched_lt {t : Text} {m n : Nat} (hmn : m < n) (hn : n ≤ t.length) :
    stretched t m < stretched t n := by
  obtain ⟨k, rfl⟩ := Nat.exists_eq_add_of_lt hmn
  have hrest : t.drop m ≠ [] := by
    rw [ne_eq, List.drop_eq_nil_iff]
    omega
  have hpos := stretched_pos (n := k) hrest
  rw [Nat.add_assoc, stretched_add]
  omega

/-- A front of this width ends right before a line feed. -/
def endsAtBreak (t : Text) (w : Nat) : Bool := (t.drop w).head? == some '\n'

theorem endsAtBreak_iff {t : Text} {w : Nat} :
    endsAtBreak t w = true ↔ ∃ r, t.drop w = '\n' :: r := by
  rw [endsAtBreak, beq_iff_eq, List.head?_eq_some_iff]

theorem endsAtBreak_stretched (t : Text) (n : Nat) :
    endsAtBreak (crlf t) (stretched t n) = false := by
  rw [endsAtBreak, drop_stretched, beq_eq_false_iff_ne]
  exact head?_crlf _

/-- **The places of the new text** are those of the old one, stretched, and
those between a carriage return and its line feed. -/
theorem eq_stretched_or_break {t : Text} {w : Nat} (h : w ≤ (crlf t).length) :
    (∃ n ≤ t.length, w = stretched t n)
      ∨ endsAtBreak (crlf t) w = true ∧ '\r' ∈ (crlf t).take w := by
  induction t generalizing w with
  | nil =>
      obtain rfl : w = 0 := by simpa using h
      exact .inl ⟨0, Nat.le_refl 0, rfl⟩
  | cons c t ih =>
      cases w with
      | zero => exact .inl ⟨0, Nat.zero_le _, (stretched_zero _).symm⟩
      | succ w =>
          by_cases hc : c = '\n'
          · subst hc
            cases w with
            | zero => exact .inr ⟨rfl, by simp⟩
            | succ w =>
                rcases ih (by simpa using h) with ⟨n, hn, rfl⟩ | ⟨hhead, hmem⟩
                · exact .inl ⟨n + 1, by simpa using hn, rfl⟩
                · exact .inr ⟨hhead, by simp⟩
          · rw [crlf_cons hc] at h ⊢
            rcases ih (by simpa using h) with ⟨n, hn, rfl⟩ | ⟨hhead, hmem⟩
            · exact .inl ⟨n + 1, by simpa using hn, (stretched_cons hc t n).symm⟩
            · exact .inr ⟨hhead, by simpa using .inr hmem⟩

end Text

/-! ## Places -/

namespace Place

def crlf (p : Place) : Place := ⟨p.before, Text.crlf p.rest⟩

@[simp] theorem rest_crlf (p : Place) : p.crlf.rest = Text.crlf p.rest := rfl

theorem skip_crlf (p : Place) {n : Nat} (h : n ≤ p.rest.length) :
    p.crlf.skip (Text.stretched p.rest n) = (p.skip n).crlf := by
  obtain ⟨b, t⟩ := p
  induction t generalizing b n with
  | nil =>
      obtain rfl : n = 0 := by simpa using h
      rfl
  | cons c t ih =>
      cases n with
      | zero => simp
      | succ n =>
          have htail := ih (some c) (n := n) (by simpa using h)
          by_cases hc : c = '\n'
          · subst hc
            exact htail
          · simp only [crlf, Text.crlf_cons hc, Text.stretched_cons hc, skip]
            exact htail

theorem atBoundary_crlf (p : Place) : p.crlf.atBoundary = p.atBoundary := by
  obtain ⟨b, t⟩ := p
  cases t with
  | nil => rfl
  | cons c t =>
      by_cases hc : c = '\n'
      · subst hc
        -- neither character belongs to a word
        have hreturn : Text.isWord '\r' = Text.isWord '\n' := by decide
        simp [crlf, atBoundary, Text.isBoundary, Text.wordBeside, hreturn]
      · simp [crlf, atBoundary, Text.crlf_cons hc]

end Place

/-! ## Pieces -/

namespace Piece

def text? : Piece → Option Text
  | literal t | keyword t | optional t => some t
  | _ => none

theorem covers_crlf {piece : Piece} (h : piece.text?.all Text.isInline = true) (x : Text) :
    piece.Covers (Text.crlf x) ↔ piece.Covers x := by
  have same : ∀ {t : Text}, Text.isInline t = true → (Text.crlf x = t ↔ x = t) := by
    intro t ht
    have ht' := Text.crlf_eq_self (Text.isInline_iff.mp ht).1
    exact ⟨fun hx => Text.crlf_injective (hx.trans ht'.symm), fun hx => hx ▸ ht'⟩
  have nothing : Text.crlf x = [] ↔ x = [] := same (t := []) rfl
  have blank : (∀ c ∈ Text.crlf x, Text.isBlank c = true) ↔ ∀ c ∈ x, Text.isBlank c = true := by
    constructor
    · exact fun hx c hc => hx c (Text.mem_crlf.mpr (.inl hc))
    · intro hx c hc
      rcases Text.mem_crlf.mp hc with hc | ⟨rfl, -⟩
      · exact hx c hc
      · decide
  cases piece with
  | literal t => exact same h
  | keyword t => exact same h
  | optional t => exact or_congr (same h) nothing
  | space => exact blank
  | someSpace => exact and_congr blank (not_congr nothing)
  | lineBreak => exact and_congr blank (by simp [Text.mem_crlf])
  | gap => exact Iff.rfl
  | gapWithin n => rw [Covers, Covers, Text.count_crlf]

theorem bounded_crlf {piece : Piece} {p : Place} {w : Nat} (h : w ≤ p.rest.length) :
    piece.Bounded p.crlf (Text.stretched p.rest w) ↔ piece.Bounded p w := by
  cases piece with
  | keyword t => rw [Bounded, Bounded, Place.skip_crlf p h, Place.atBoundary_crlf,
      Place.atBoundary_crlf]
  | _ => exact Iff.rfl

theorem stretched_mem_widths {piece : Piece} (h : piece.text?.all Text.isInline = true)
    {p : Place} {w : Nat} (hw : w ≤ p.rest.length) :
    Text.stretched p.rest w ∈ piece.widths p.crlf ↔ w ∈ piece.widths p := by
  rw [mem_widths, mem_widths, Place.rest_crlf, Text.take_stretched, covers_crlf h,
    bounded_crlf hw]
  simp [Text.stretched_le, hw]

/-! ## Widths in order -/

theorem precedes_stretched {piece : Piece} {t : Text} {w v : Nat} (hw : w ≤ t.length)
    (hv : v ≤ t.length) (h : piece.precedes w v) :
    piece.precedes (Text.stretched t w) (Text.stretched t v) := by
  unfold precedes at *
  split
  · rename_i hgap
    rw [if_pos hgap] at h
    exact Text.stretched_lt h hv
  · rename_i hgap
    rw [if_neg hgap] at h
    exact Text.stretched_lt h hw

instance (piece : Piece) : Std.Irrefl piece.precedes where
  irrefl w := by
    unfold precedes
    split <;> omega

instance (piece : Piece) : Std.Antisymm piece.precedes where
  antisymm w v := by
    unfold precedes
    split <;> omega

/-- **The widths in the new text** that do not end within a line break are
the old ones, stretched, in the same order. -/
theorem filter_widths_crlf {piece : Piece} (h : piece.text?.all Text.isInline = true)
    (hne : piece ≠ .optional []) (p : Place) :
    (piece.widths p.crlf).filter (!Text.endsAtBreak (Text.crlf p.rest) ·)
      = (piece.widths p).map (Text.stretched p.rest) := by
  refine List.Pairwise.eq_of_mem_iff (r := piece.precedes) ((pairwise_widths hne _).filter _) ?_ ?_
  · rw [List.pairwise_map]
    refine (pairwise_widths hne p).imp_of_mem fun hw hv hprec => ?_
    exact precedes_stretched (le_of_mem_widths hw) (le_of_mem_widths hv) hprec
  · intro w
    rw [List.mem_filter, List.mem_map]
    constructor
    · rintro ⟨hw, hend⟩
      rcases Text.eq_stretched_or_break (le_of_mem_widths hw) with ⟨n, hn, rfl⟩ | ⟨hbreak, -⟩
      · exact ⟨n, (stretched_mem_widths h hn).mp hw, rfl⟩
      · rw [hbreak] at hend
        cases hend
    · rintro ⟨n, hn, rfl⟩
      refine ⟨(stretched_mem_widths h (le_of_mem_widths hn)).mpr hn, ?_⟩
      rw [Text.endsAtBreak_stretched]
      rfl

/-! ## Patterns that ignore endings -/

/-- Nothing that starts with a line feed can be parsed. -/
def shunsBreak : List Piece → Bool
  | literal t :: _ | keyword t :: _ => t.head?.any (· ≠ '\n')
  | optional t :: pieces => t.head?.any (· ≠ '\n') && shunsBreak pieces
  | _ => false

/-- The texts of the pieces lie within a line, and what follows blanks or
a gap cannot start with a line feed. -/
def ignoresEndings : List Piece → Bool
  | [] => true
  | piece :: pieces =>
      piece.text?.all (fun t => !t.isEmpty && Text.isInline t)
        && (piece.text?.isSome || shunsBreak pieces) && ignoresEndings pieces

theorem not_covers_break {t x r : Text} {w : Nat} (h : t.head?.any (· ≠ '\n') = true)
    (hx : x = '\n' :: r) : x.take w ≠ t := by
  rintro rfl
  cases w with
  | zero => simp at h
  | succ w => simp [hx] at h

theorem not_isParse_of_shunsBreak {pieces : List Piece} (h : shunsBreak pieces = true)
    {p : Place} {r : Text} (hp : p.rest = '\n' :: r) {ws : List Nat} :
    ¬ IsParse p pieces ws := by
  intro hparse
  induction pieces generalizing ws with
  | nil => cases h
  | cons piece pieces ih =>
      cases hparse with
      | @cons _ _ _ w ws hw hrest =>
          obtain ⟨-, hcov, -⟩ := mem_widths.mp hw
          cases piece with
          | literal t => exact not_covers_break h hp hcov
          | keyword t => exact not_covers_break h hp hcov
          | optional t =>
              obtain ⟨ht, hpieces⟩ := Bool.and_eq_true _ _ |>.mp h
              rcases hcov with hfull | hnone
              · exact not_covers_break ht hp hfull
              · obtain rfl : w = 0 := by
                  rw [hp] at hnone
                  simpa using hnone
                rw [Place.skip_zero] at hrest
                exact ih hpieces hrest
          | _ => cases h

theorem preferred_eq_none_of_shunsBreak {pieces : List Piece} (h : shunsBreak pieces = true)
    {p : Place} {r : Text} (hp : p.rest = '\n' :: r) : preferred p pieces = none := by
  cases hpref : preferred p pieces with
  | none => rfl
  | some ws => exact absurd (isParse_of_preferred hpref) (not_isParse_of_shunsBreak h hp)

/-- A width that ends within a line break leads nowhere. A text within a
line has none, and what follows blanks or a gap cannot be parsed there. -/
theorem preferred_eq_none_of_break {piece : Piece} {pieces : List Piece}
    (h : ignoresEndings (piece :: pieces) = true) {p : Place} {w : Nat}
    (hw : w ∈ piece.widths p.crlf) (hend : Text.endsAtBreak (Text.crlf p.rest) w = true) :
    preferred (p.crlf.skip w) pieces = none := by
  simp only [ignoresEndings, Bool.and_eq_true, Bool.or_eq_true] at h
  obtain ⟨⟨htext, hshuns⟩, -⟩ := h
  rcases hshuns with hsome | hshuns
  · exfalso
    obtain ⟨hle, hcov, -⟩ := mem_widths.mp hw
    have hreturn : '\r' ∈ p.crlf.rest.take w := by
      rcases Text.eq_stretched_or_break hle with ⟨n, -, rfl⟩ | ⟨-, hmem⟩
      · rw [Text.endsAtBreak_stretched] at hend
        cases hend
      · exact hmem
    have inline : ∀ {t : Text}, (!t.isEmpty && Text.isInline t) = true →
        p.crlf.rest.take w ≠ t := by
      rintro t ht rfl
      exact (Text.isInline_iff.mp (Bool.and_eq_true _ _ |>.mp ht).2).2 hreturn
    cases piece with
    | literal t => exact inline htext hcov
    | keyword t => exact inline htext hcov
    | optional t =>
        rcases hcov with hfull | hnone
        · exact inline htext hfull
        · rw [hnone] at hreturn
          cases hreturn
    | _ => cases hsome
  · obtain ⟨r, hr⟩ := Text.endsAtBreak_iff.mp hend
    have hrest : (p.crlf.skip w).rest = '\n' :: r := by
      rw [Place.rest_skip]
      exact hr
    exact preferred_eq_none_of_shunsBreak hshuns hrest

end Piece

/-! ## The preferred parse -/

/-- The widths of a parse once the carriage returns are there. -/
def stretchedAll : Text → List Nat → List Nat
  | _, [] => []
  | t, w :: ws => Text.stretched t w :: stretchedAll (t.drop w) ws

theorem parseWidth_stretchedAll (t : Text) (ws : List Nat) :
    parseWidth (stretchedAll t ws) = Text.stretched t (parseWidth ws) := by
  induction ws generalizing t with
  | nil => simp [stretchedAll, parseWidth]
  | cons w ws ih => rw [stretchedAll, parseWidth, parseWidth, ih, Text.stretched_add]

theorem findSome?_congr {α β : Type} {l : List α} {f g : α → Option β}
    (h : ∀ a ∈ l, f a = g a) : l.findSome? f = l.findSome? g := by
  rw [← List.head?_filterMap, ← List.head?_filterMap, List.filterMap_congr h]

theorem findSome?_filter {α β : Type} {l : List α} {keep : α → Bool} {f : α → Option β}
    (h : ∀ a ∈ l, keep a = false → f a = none) : (l.filter keep).findSome? f = l.findSome? f := by
  rw [← List.head?_filterMap, List.filterMap_filter, List.head?_filterMap]
  refine findSome?_congr fun a ha => ?_
  cases hkeep : keep a with
  | true => rfl
  | false => exact (h a ha hkeep).symm

/-- **The preferred parse of a pattern that ignores endings** in the new
text is the one in the old text, stretched. -/
theorem preferred_crlf {pieces : List Piece} (h : Piece.ignoresEndings pieces = true)
    (p : Place) : preferred p.crlf pieces = (preferred p pieces).map (stretchedAll p.rest) := by
  induction pieces generalizing p with
  | nil => rfl
  | cons piece pieces ih =>
      have hpiece := h
      simp only [Piece.ignoresEndings, Bool.and_eq_true] at hpiece
      obtain ⟨⟨htext, -⟩, hpieces⟩ := hpiece
      have hinline : piece.text?.all Text.isInline = true := by
        revert htext
        cases piece.text? <;> simp +contextual
      have hne : piece ≠ .optional [] := by
        rintro rfl
        cases htext
      have hrest : ∀ w ∈ piece.widths p,
          (preferred (p.crlf.skip (Text.stretched p.rest w)) pieces).map
              (Text.stretched p.rest w :: ·)
            = ((preferred (p.skip w) pieces).map (w :: ·)).map (stretchedAll p.rest) := by
        intro w hw
        rw [Place.skip_crlf p (Piece.le_of_mem_widths hw), ih hpieces, Place.rest_skip,
          Option.map_map, Option.map_map]
        rfl
      have hbreak : ∀ w ∈ piece.widths p.crlf, (!Text.endsAtBreak (Text.crlf p.rest) w) = false →
          (preferred (p.crlf.skip w) pieces).map (w :: ·) = none := by
        intro w hw hend
        rw [Piece.preferred_eq_none_of_break h hw (by simpa using hend)]
        rfl
      rw [preferred, preferred, ← findSome?_filter hbreak, Piece.filter_widths_crlf hinline hne,
        List.findSome?_map, List.map_findSome?]
      exact findSome?_congr hrest

end Upkeep
