import Upkeep.Proofs.Parse

/-!
# Guards and the preferred parse

A matcher looks at the preferred parse of a place only, and gives the
place up if that parse breaks a guard. For the patterns below nothing is
lost by this.

Without guards there is nothing to break
(`isSome_width?_of_unguarded`). With one gap, the pieces before it have to
be parsed in one way only. Then every parse starts the gap at the same
character, and the preferred one ends it first; so it respects the guards
as soon as some parse does (`isSome_width?_of_oneGap`). *Rigid* pieces are
parsed in one way: blanks that are followed by something else than a blank
have only one width.
-/

namespace Upkeep

/-! ## Rigid pieces -/

namespace Piece

def isText : Piece → Bool
  | literal _ | keyword _ => true
  | _ => false

def isRun : Piece → Bool
  | space | someSpace | lineBreak => true
  | _ => false

/-- A text that does not start with a blank. -/
def isSharp : Piece → Bool
  | literal t | keyword t => t.head?.any (!Text.isBlank ·)
  | _ => false

/-- Texts, and blanks that are followed by a text that does not start
with one: each piece has a single width in all parses at a place. -/
def isRigid : List Piece → Bool
  | [] => true
  | piece :: pieces =>
      (piece.isText || (piece.isRun && pieces.head?.any isSharp)) && isRigid pieces

theorem eq_of_isText {piece : Piece} {p : Place} {w v : Nat} (ht : piece.isText = true)
    (hw : w ∈ piece.widths p) (hv : v ∈ piece.widths p) : w = v := by
  cases piece with
  | literal t =>
      simp only [widths] at hw hv
      split at hw <;> simp_all
  | keyword t =>
      simp only [widths] at hw hv
      split at hw <;> simp_all
  | _ => simp [isText] at ht

theorem blank_of_isRun {piece : Piece} {p : Place} {w : Nat} (hr : piece.isRun = true)
    (hw : w ∈ piece.widths p) : ∀ c ∈ p.rest.take w, Text.isBlank c = true := by
  obtain ⟨-, hcov, -⟩ := mem_widths.mp hw
  cases piece with
  | space => exact hcov
  | someSpace => exact hcov.1
  | lineBreak => exact hcov.1
  | _ => simp [isRun] at hr

theorem exists_of_isSharp {piece : Piece} {q : Place} {v : Nat} (hs : piece.isSharp = true)
    (hv : v ∈ piece.widths q) : ∃ c r, q.rest = c :: r ∧ Text.isBlank c = false := by
  have front : ∀ {t : Text}, t.head?.any (!Text.isBlank ·) = true → q.rest.take v = t →
      ∃ c r, q.rest = c :: r ∧ Text.isBlank c = false := by
    intro t ht htake
    cases t with
    | nil => simp at ht
    | cons c t =>
        have hq := List.take_append_drop v q.rest
        rw [htake] at hq
        exact ⟨c, t ++ q.rest.drop v, hq.symm, by simpa using ht⟩
  cases piece with
  | literal t => exact front hs (mem_widths.mp hv).2.1
  | keyword t => exact front hs (mem_widths.mp hv).2.1
  | _ => simp [isSharp] at hs

/-- Blanks before a character that is none take the whole run. -/
theorem eq_run_of_head {p : Place} {piece : Piece} {w : Nat} (hr : piece.isRun = true)
    (hw : w ∈ piece.widths p) (h : ∃ c r, (p.skip w).rest = c :: r ∧ Text.isBlank c = false) :
    w = (p.rest.takeWhile Text.isBlank).length := by
  obtain ⟨c, r, hrest, hc⟩ := h
  rw [Place.rest_skip] at hrest
  have hrun := (le_length_takeWhile_iff (le_of_mem_widths hw)).mpr (blank_of_isRun hr hw)
  refine Nat.le_antisymm hrun (Nat.le_of_not_lt fun hlt => ?_)
  -- otherwise the character behind the blanks would be one of them
  have hall := (le_length_takeWhile_iff
    (Nat.le_trans hlt (length_takeWhile_le _ _))).mp (Nat.succ_le_of_lt hlt)
  have hmem : c ∈ p.rest.take (w + 1) := by
    rw [List.take_add, hrest]
    simp
  rw [hall c hmem] at hc
  cases hc

/-- Blanks before a sharp piece take the whole run. -/
theorem eq_run_of_isSharp {p : Place} {piece next : Piece} {w v : Nat}
    (hr : piece.isRun = true) (hw : w ∈ piece.widths p) (hs : next.isSharp = true)
    (hv : v ∈ next.widths (p.skip w)) : w = (p.rest.takeWhile Text.isBlank).length :=
  eq_run_of_head hr hw (exists_of_isSharp hs hv)

end Piece

/-- Rigid pieces are parsed in one way only. -/
theorem IsParse.unique_of_isRigid {p : Place} {pieces : List Piece} {us vs : List Nat}
    (hr : Piece.isRigid pieces = true) (hu : IsParse p pieces us) (hv : IsParse p pieces vs) :
    us = vs := by
  induction hu generalizing vs with
  | nil =>
      cases hv with
      | nil => rfl
  | @cons p piece pieces w ws hw hus ih =>
      cases hv with
      | @cons _ _ _ v vs hv hvs =>
          obtain ⟨hpiece, hrest⟩ := Bool.and_eq_true _ _ |>.mp hr
          obtain rfl : w = v := by
            rcases Bool.or_eq_true _ _ |>.mp hpiece with htext | hblank
            · exact Piece.eq_of_isText htext hw hv
            · obtain ⟨hrun, hsharp⟩ := Bool.and_eq_true _ _ |>.mp hblank
              cases hus with
              | nil => simp at hsharp
              | @cons _ next _ _ _ hu' _ =>
                  cases hvs with
                  | cons hv' _ =>
                      have hsharp : next.isSharp = true := by simpa using hsharp
                      rw [Piece.eq_run_of_isSharp hrun hw hsharp hu',
                        Piece.eq_run_of_isSharp hrun hv hsharp hv']
          rw [ih hrest hvs]

/-- There is at most one way to parse the pieces at a place. -/
def Piece.ParsedOnce (pieces : List Piece) : Prop :=
  ∀ (p : Place) (us vs : List Nat), IsParse p pieces us → IsParse p pieces vs → us = vs

theorem Piece.parsedOnce_of_isRigid {pieces : List Piece} (h : isRigid pieces = true) :
    ParsedOnce pieces :=
  fun _ _ _ hu hv => hu.unique_of_isRigid h hv

/-! ## Guards -/

namespace Text

theorem contains_iff {part t : Text} : contains part t = true ↔ part <:+: t := by
  induction t with
  | nil => simp [contains]
  | cons c t ih =>
      rw [contains, Bool.or_eq_true, List.isPrefixOf_iff_prefix, ih, List.infix_cons_iff]

/-- A longer front contains what a shorter one contains. -/
theorem contains_take_mono {part t : Text} {m n : Nat} (hmn : m ≤ n)
    (h : contains part (t.take m) = true) : contains part (t.take n) = true := by
  rw [contains_iff] at *
  exact h.trans (List.take_prefix_take_left hmn).isInfix

end Text

namespace Matcher

/-- What a pattern compiles to. -/
theorem exists_of_compile {rule : String} {pieces : List Piece} {m : Matcher}
    (h : compile rule pieces = .ok m) :
    ∃ lead, pieces.findSome? Piece.anchor? = some lead ∧ m = ⟨lead, guarded lead none pieces⟩ := by
  unfold compile at h
  split at h
  · cases h
  · rename_i lead hlead
    split at h
    · cases h
    · exact ⟨lead, hlead, (Except.ok.inj h).symm⟩

def unguarded (piece : Piece) : GuardedPiece := ⟨piece, []⟩

theorem map_piece_unguarded (pieces : List Piece) :
    (pieces.map unguarded).map (·.piece) = pieces := by
  rw [List.map_map]
  exact List.map_id pieces

theorem crosses_unguarded (pieces : List Piece) (t : Text) (ws : List Nat) :
    crosses (pieces.map unguarded) t ws = false := by
  induction pieces generalizing t ws with
  | nil => rfl
  | cons piece pieces ih =>
      cases ws with
      | nil => rfl
      | cons w ws => simpa [crosses, unguarded] using ih (t.drop w) ws

theorem crosses_append {front back : List GuardedPiece} {us : List Nat}
    (h : us.length = front.length) (t : Text) (vs : List Nat) :
    crosses (front ++ back) t (us ++ vs)
      = (crosses front t us || crosses back (t.drop (parseWidth us)) vs) := by
  induction front generalizing us t with
  | nil =>
      obtain rfl : us = [] := by simpa using h
      rfl
  | cons part front ih =>
      cases us with
      | nil => simp at h
      | cons u us =>
          have hlen : us.length = front.length := by simpa using h
          have htail := ih hlen (t.drop u)
          simp only [List.cons_append, crosses, htail, parseWidth, List.drop_drop, Bool.or_assoc]

theorem width?_eq_some_iff {m : Matcher} {p : Place} {w : Nat} :
    m.width? p = some w ↔
      ∃ ws, preferred p m.pieces = some ws ∧ crosses m.parts p.rest ws = false
        ∧ parseWidth ws = w := by
  rw [width?]
  cases preferred p m.pieces with
  | none => simp [uncrossed?]
  | some ws =>
      cases hc : crosses m.parts p.rest ws <;> simp [uncrossed?, hc]

/-- Without guards, a place with a parse has a match. -/
theorem isSome_width?_of_unguarded {m : Matcher} {pieces : List Piece} {p : Place}
    {ws : List Nat} (hm : m.parts = pieces.map unguarded) (h : IsParse p pieces ws) :
    (m.width? p).isSome = true := by
  have hpieces : m.pieces = pieces := by rw [Matcher.pieces, hm, map_piece_unguarded]
  obtain ⟨vs, hvs⟩ := Option.isSome_iff_exists.mp (isSome_preferred h)
  rw [← hpieces] at hvs
  have hfree := crosses_unguarded pieces p.rest vs
  rw [← hm] at hfree
  rw [width?_eq_some_iff.mpr ⟨vs, hvs, hfree, rfl⟩]
  rfl

/-- A gap is tried from the shortest width on. -/
theorem gap_le_of_preferred {q : Place} {piece : Piece} {back : List Piece} {g v : Nat}
    {vs : List Nat} (hgap : piece.isGap = true)
    (h : preferred q (piece :: back) = some (v :: vs)) (hg : g ∈ piece.widths q)
    (hback : (preferred (q.skip g) back).isSome = true) : v ≤ g := by
  obtain ⟨k, hk⟩ : ∃ k, piece.widths q = List.range k := by
    cases piece with
    | gap => exact ⟨_, rfl⟩
    | gapWithin n => exact ⟨_, rfl⟩
    | _ => simp [Piece.isGap] at hgap
  rw [preferred, hk, List.findSome?_eq_some_iff] at h
  obtain ⟨before, w, after, hsplit, hw, hnone⟩ := h
  obtain ⟨_, _, hcons⟩ := Option.map_eq_some_iff.mp hw
  obtain ⟨rfl, -⟩ := List.cons.inj hcons
  have hsorted : List.Pairwise (· < ·) (before ++ w :: after) := hsplit ▸ List.pairwise_lt_range
  have hmem : g ∈ before ++ w :: after := hsplit ▸ hk ▸ hg
  rcases List.mem_append.mp hmem with hin | hin
  · obtain ⟨x, hx⟩ := Option.isSome_iff_exists.mp hback
    simpa [hx] using hnone g hin
  · rcases List.mem_cons.mp hin with rfl | hin
    · exact Nat.le_refl _
    · have hafter := (List.pairwise_append.mp hsorted).2.1
      exact Nat.le_of_lt ((List.pairwise_cons.mp hafter).1 g hin)

/-- **One gap behind pieces that are parsed once.** If some parse at a place
respects the guards then so does the preferred one: its gap starts at the
same character and is no longer. -/
theorem isSome_width?_of_oneGap {m : Matcher} {front back : List Piece} {gap : GuardedPiece}
    {p : Place} {ws : List Nat}
    (hm : m.parts = front.map unguarded ++ gap :: back.map unguarded)
    (honce : Piece.ParsedOnce front) (hgap : gap.piece.isGap = true)
    (h : IsParse p m.pieces ws) (hfree : crosses m.parts p.rest ws = false) :
    (m.width? p).isSome = true := by
  have hpieces : m.pieces = front ++ gap.piece :: back := by
    rw [Matcher.pieces, hm, List.map_append, List.map_cons, map_piece_unguarded,
      map_piece_unguarded]
  -- only the gap can cross
  have hcross : ∀ {us : List Nat} (v : Nat) (vs : List Nat), us.length = front.length →
      crosses m.parts p.rest (us ++ v :: vs)
        = gap.banned.any (Text.contains · ((p.rest.drop (parseWidth us)).take v)) := by
    intro us v vs hlen
    rw [hm, crosses_append (by simpa using hlen), crosses_unguarded, crosses, crosses_unguarded,
      Bool.false_or, Bool.or_false]
  obtain ⟨ws', hws'⟩ := Option.isSome_iff_exists.mp (isSome_preferred h)
  have hpref := hws'
  rw [hpieces] at h hpref
  obtain ⟨us, vs, rfl, hus, hvs⟩ := h.exists_of_append
  obtain ⟨us', vs', rfl, hus', hvs'⟩ := preferred_append hpref
  obtain rfl := honce p us' us hus' hus
  cases hvs with
  | @cons _ _ _ g vs hg hback =>
      cases isParse_of_preferred hvs' with
      | @cons _ _ _ g' vs' hg' hback' =>
          have hle : g' ≤ g := gap_le_of_preferred hgap hvs' hg (isSome_preferred hback)
          have hfree' : crosses m.parts p.rest (us' ++ g' :: vs') = false := by
            rw [hcross g vs hus.length_eq] at hfree
            rw [hcross g' vs' hus.length_eq, List.any_eq_false]
            intro part hpart hcont
            exact List.any_eq_false.mp hfree part hpart (Text.contains_take_mono hle hcont)
          rw [width?_eq_some_iff.mpr ⟨_, hws', hfree', rfl⟩]
          rfl

end Matcher

end Upkeep
