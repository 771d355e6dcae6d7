import Upkeep.Proofs.Block
import Upkeep.Proofs.Front

/-!
# Splits that a scan passes over

At each character a matcher tries the first split only. If that one
straddles an anchor, the character is given up, though a later split might
have respected the guards. With two gaps this happens
(`Matcher.findAll_skips_split`): in the first split the first gap ends as
early as it can, and the second one has to take in the anchor between them
once more.

Some patterns are safe from this. Gaps that stand behind no anchor have no
guards. And a single gap behind definite pieces starts at the same
character in all splits and is shortest in the first one. For such patterns
a character outside all spans starts no split that respects the guards
(`Matcher.straddles_of_isSafe`). The stock patterns are among them
(`Stock.stock_skips_nothing`).
-/

namespace Upkeep

namespace Piece

/-- No gap stands behind an anchor. -/
def isUnguarded : List Piece → Bool
  | [] => true
  | piece :: pieces =>
      if piece.anchor?.isSome then pieces.all (!isGap ·) else isUnguarded pieces

/-- There is one gap, and what stands before it is definite. -/
def hasSettledGap (pieces : List Piece) : Bool :=
  isDefinite (pieces.takeWhile (!isGap ·)) && (pieces.dropWhile (!isGap ·)).tail.all (!isGap ·)

/-- The first split of the pattern respects the guards if any split does. -/
def isSafe (pieces : List Piece) : Bool := isUnguarded pieces || hasSettledGap pieces

theorem anchors_take_of_isUnguarded {pieces : List Piece} (h : isUnguarded pieces = true) {i : Nat}
    {piece : Piece} (hi : pieces[i]? = some piece) (hgap : piece.isGap = true) :
    anchors (pieces.take i) = [] := by
  induction pieces generalizing i with
  | nil => cases hi
  | cons first pieces ih =>
      cases i with
      | zero => rfl
      | succ i =>
          rw [isUnguarded] at h
          rw [List.getElem?_cons_succ] at hi
          split at h
          · have hfree := List.all_eq_true.mp h piece (List.mem_of_getElem? hi)
            rw [hgap] at hfree
            cases hfree
          · rename_i hnone
            rw [List.take_succ_cons, anchors_cons, ih h hi, Option.not_isSome_iff_eq_none.mp hnone]
            rfl

theorem not_straddles_of_isUnguarded {pieces : List Piece} (h : isUnguarded pieces = true)
    (xs : List Text) : ¬ Straddles pieces xs := by
  rintro ⟨i, piece, x, a, hi, -, hgap, hbans, -⟩
  unfold Bans at hbans
  rw [anchors_take_of_isUnguarded h hi hgap] at hbans
  rcases hbans with hbans | hbans
  · cases hbans
  · cases hbans

/-- Without a gap there is nothing to guard, and otherwise the first gap is
the only one. -/
theorem cases_of_hasSettledGap {pieces : List Piece} (h : hasSettledGap pieces = true) :
    pieces.all (!isGap ·) = true
      ∨ ∃ front hole back, pieces = front ++ hole :: back ∧ isDefinite front = true
        ∧ front.all (!isGap ·) = true ∧ hole.isGap = true ∧ back.all (!isGap ·) = true := by
  obtain ⟨hfront, hback⟩ := Bool.and_eq_true _ _ |>.mp h
  have hsplit := List.takeWhile_append_dropWhile (p := (!isGap ·)) (l := pieces)
  have hfree : (pieces.takeWhile (!isGap ·)).all (!isGap ·) = true := List.all_takeWhile
  cases hrest : pieces.dropWhile (!isGap ·) with
  | nil =>
      rw [hrest, List.append_nil] at hsplit
      rw [hsplit] at hfree
      exact .inl hfree
  | cons hole back =>
      have hhead := List.head?_dropWhile_not (!isGap ·) pieces
      rw [hrest] at hsplit hback hhead
      exact .inr ⟨_, hole, back, hsplit.symm, hfront, hfree, by simpa using hhead, hback⟩

end Piece

/-! ## Patterns that skip nothing -/

namespace Matcher

variable {rule : String} {pieces : List Piece} {m : Matcher} {t : Text}

/-- A safe pattern matches wherever a split respects the guards. -/
theorem exists_matches_of_isSafe (hm : compile rule pieces = .ok m)
    (hsafe : Piece.isSafe pieces = true) {n : Nat} (hn : n ≤ t.length) {xs : List Text}
    (hxs : Split t n pieces xs) (hclear : ¬ Straddles pieces xs) :
    ∃ ys, Matches t n pieces ys := by
  have first : (∀ ys, ¬ Straddles pieces ys) → ∃ ys, Matches t n pieces ys := by
    intro hnone
    obtain ⟨ys, hys⟩ := exists_isFirstSplit hxs hn
    exact ⟨ys, hys, hnone ys⟩
  rcases Bool.or_eq_true _ _ |>.mp hsafe with hfree | hsettled
  · exact first (Piece.not_straddles_of_isUnguarded hfree)
  · rcases Piece.cases_of_hasSettledGap hsettled with
      hfree | ⟨front, hole, back, rfl, hfront, hfrontFree, hgap, hbackFree⟩
    · exact first (not_straddles_of_gapFree hfree)
    · obtain ⟨lead, -, hcompiled⟩ := exists_of_compile hm
      obtain ⟨last, hguarded⟩ := exists_guarded_append hfrontFree lead none (hole :: back)
      have hparts : m.parts = front.map unguarded
          ++ ⟨hole, bannedAfter lead last⟩ :: back.map unguarded := by
        rw [hcompiled]
        show guarded lead none (front ++ hole :: back) = _
        rw [hguarded, guarded, if_pos hgap, guarded_of_gapFree hbackFree]
      exact exists_matches_of_oneGap hparts hm
        (Piece.parsedOnce_of_isDefinite hfront) hgap hn hxs hclear

def Covered (spans : List Span) (n : Nat) : Prop := ∃ s ∈ spans, s.start ≤ n ∧ n < s.stop

theorem straddles_of_isSafe (hm : compile rule pieces = .ok m)
    (hsafe : Piece.isSafe pieces = true) {n : Nat} (hn : n ≤ t.length)
    (hout : ¬ Covered (m.findAll t) n) {xs : List Text} (hxs : Split t n pieces xs) :
    Straddles pieces xs := by
  by_contra hclear
  obtain ⟨ys, hys⟩ := exists_matches_of_isSafe hm hsafe hn hxs hclear
  rcases covered_or_not_matches hm hn with hin | hnone
  · exact hout hin
  · exact hnone ys hys

/-- **What is skipped.** A split that respects the guards at a character
outside all spans comes behind another one there, the first, which
straddles an anchor. For a safe pattern there is no such split: outside all
spans every split straddles an anchor. -/
theorem findAll_skipped (hm : compile rule pieces = .ok m) (t : Text) :
    (∀ n ≤ t.length, ¬ Covered (m.findAll t) n →
        ∀ xs, Split t n pieces xs → ¬ Straddles pieces xs →
          ∃ ys, IsFirstSplit t n pieces ys ∧ Straddles pieces ys
            ∧ Precedes pieces (ys.map List.length) (xs.map List.length))
      ∧ (Piece.isSafe pieces = true → ∀ n ≤ t.length, ¬ Covered (m.findAll t) n →
          ∀ xs, Split t n pieces xs → Straddles pieces xs) := by
  refine ⟨?_, fun hsafe n hn hout xs => straddles_of_isSafe hm hsafe hn hout⟩
  intro n hn hout xs hxs hclear
  obtain ⟨ys, hys⟩ := exists_isFirstSplit hxs hn
  rcases covered_or_not_matches hm hn with hin | hnone
  · exact absurd hin hout
  · have hstr : Straddles pieces ys := by
      by_contra hys'
      exact hnone ys ⟨hys, hys'⟩
    refine ⟨ys, hys, hstr, ?_⟩
    rcases hys.2 xs hxs with rfl | hbefore
    · exact absurd hstr hclear
    · exact hbefore

theorem findAll_skipped_fenced :
    compile "fenced" fenced = .ok fencedMatcher ∧ ¬ Covered (fencedMatcher.findAll fencedText) 0
      ∧ ∀ xs, Split fencedText 0 fenced xs → Straddles fenced xs := by
  have hm : compile "fenced" fenced = .ok fencedMatcher := rfl
  have hfound : fencedMatcher.findAll fencedText = [⟨11, 26⟩] := by decide
  have hout : ¬ Covered (fencedMatcher.findAll fencedText) 0 := by
    rw [hfound]
    rintro ⟨s, hs, hle, -⟩
    obtain rfl := List.mem_singleton.mp hs
    cases hle
  exact ⟨hm, hout, (findAll_skipped hm fencedText).2 (by decide) 0 (Nat.zero_le _) hout⟩

/-- A block with a `return` in it. -/
def returning : List Piece :=
  [.literal "begin!".toList, .gap, .literal "return".toList, .gap, .literal "end!".toList]

def returningMatcher : Matcher := ⟨"begin!".toList, guarded "begin!".toList none returning⟩

def returningText : Text := "begin! x; return a; return b; end!".toList

/-- A split that respects the guards can be skipped: the block can be split
at its second `return`, but the first split takes the first one. -/
theorem findAll_skips_split :
    ¬ ∀ (rule : String) (pieces : List Piece) (m : Matcher), compile rule pieces = .ok m →
      ∀ (t : Text) (n : Nat), n ≤ t.length → ¬ Covered (m.findAll t) n →
        ∀ xs, Split t n pieces xs → Straddles pieces xs := by
  intro h
  have hm : compile "returning" returning = .ok returningMatcher := rfl
  have hfound : returningMatcher.findAll returningText = [] := by decide +kernel
  have hout : ¬ Covered (returningMatcher.findAll returningText) 0 := by
    rw [hfound]
    rintro ⟨s, hs, -⟩
    cases hs
  have hsplit : Split returningText 0 returning
      ["begin!".toList, " x; return a; ".toList, "return".toList, " b; ".toList, "end!".toList] :=
    .cons (by decide) rfl trivial <| .cons (by decide) trivial trivial <|
      .cons (by decide) rfl trivial <| .cons (by decide) trivial trivial <|
        .cons (by decide) rfl trivial (.nil _)
  have hstr := h _ _ _ hm returningText 0 (Nat.zero_le _) hout _ hsplit
  have hcross := (crosses_iff_straddles hm returningText [6, 14, 6, 4, 4]).mpr hstr
  have hfree : crosses returningMatcher.parts returningText [6, 14, 6, 4, 4] = false := by
    decide +kernel
  rw [hfree] at hcross
  cases hcross

end Matcher

/-! ## The stock patterns -/

namespace Stock

/-- No stock rule skips a split that respects the guards of its pattern. -/
theorem stock_skips_nothing {r : Rule} (hr : r ∈ [generatorRule, loopRule true, loopRule false])
    {t : Text} {n : Nat} (hn : n ≤ t.length) (hout : ¬ Matcher.Covered (r.matcher.findAll t) n)
    {xs : List Text} (hxs : Split t n r.matcher.pieces xs) : Straddles r.matcher.pieces xs := by
  obtain ⟨pieces, hm, hsafe⟩ : ∃ pieces, Matcher.compile "" pieces = .ok r.matcher
      ∧ Piece.isSafe pieces = true := by
    simp only [List.mem_cons, List.not_mem_nil, or_false] at hr
    rcases hr with rfl | rfl | rfl
    · exact ⟨_, compile_generatorBlock "", by decide⟩
    · exact ⟨_, compile_commentLoop "" true, by decide⟩
    · exact ⟨_, compile_commentLoop "" false, by decide⟩
  rw [(Matcher.pieces_of_compile hm).1] at hxs ⊢
  exact Matcher.straddles_of_isSafe hm hsafe hn hout hxs

end Stock

end Upkeep
