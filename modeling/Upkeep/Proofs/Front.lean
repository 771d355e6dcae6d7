import Upkeep.Proofs.Overlap

/-!
# How a pattern starts

A text that is spelled by parts starts in one of a few ways, and these can
be read off the parts: with a character of a fixed text, or with a run of
blanks. `fronts` lists them, each with the parts that spell the rest
(`exists_front`). Nothing is said of gaps.

Two checks rest on this. Optional texts and blanks are *forced* if what
follows cannot start like they do, and a pattern in which everything is
forced is parsed in one way only (`IsParse.unique_of_isDefinite`). And two
patterns *clash* if they cannot both be spelled at the same place
(`not_spells_of_clashes`). `clashes` follows both of them character by
character, and passes a run of blanks in one go where both runs have to end
at the same character.
-/

namespace Upkeep

/-! ## Fronts -/

/-- A way in which a spelled text may start, with what spells the rest. -/
inductive Front where
  /-- In any way. -/
  | unknown
  | char (c : Char) (rest : List GuardedPiece)
  /-- With blanks, at least one. -/
  | run (behind : List GuardedPiece)

/-- The ways in which a text that is spelled by the parts may start. -/
def fronts : List GuardedPiece → List Front
  | [] => [.unknown]
  | part :: parts =>
      match part.piece with
      | .literal [] | .keyword [] | .optional [] => fronts parts
      | .literal (c :: u) | .keyword (c :: u) => [.char c (Matcher.unguarded (.literal u) :: parts)]
      | .optional (c :: u) => .char c (Matcher.unguarded (.literal u) :: parts) :: fronts parts
      | .space => .run parts :: fronts parts
      | .someSpace | .lineBreak => [.run parts]
      | .gap | .gapWithin _ => [.unknown]

namespace Front

def Fits : Front → Text → Prop
  | unknown, _ => True
  | char c rest, x => ∃ y, x = c :: y ∧ Spells rest y
  | run behind, x => ∃ y z, x = y ++ z ∧ y ≠ [] ∧ (∀ c ∈ y, Text.isBlank c = true) ∧ Spells behind z

def isSharp : Front → Bool
  | char c _ => !Text.isBlank c
  | _ => false

def shuns (c : Char) : Front → Bool
  | unknown => false
  | char d _ => d != c
  | run _ => !Text.isBlank c

theorem Fits.exists_of_isSharp {f : Front} {x : Text} (h : f.Fits x) (hs : f.isSharp = true) :
    ∃ c y, x = c :: y ∧ Text.isBlank c = false := by
  cases f with
  | char c rest =>
      obtain ⟨y, rfl, -⟩ := h
      exact ⟨c, y, rfl, by simpa [isSharp] using hs⟩
  | _ => cases hs

theorem Fits.exists_of_shuns {f : Front} {x : Text} {c : Char} (h : f.Fits x)
    (hs : f.shuns c = true) : ∃ d y, x = d :: y ∧ d ≠ c := by
  cases f with
  | unknown => cases hs
  | char d rest =>
      obtain ⟨y, rfl, -⟩ := h
      exact ⟨d, y, rfl, by simpa [shuns] using hs⟩
  | run behind =>
      obtain ⟨y, z, rfl, hne, hblank, -⟩ := h
      obtain ⟨d, y, rfl⟩ := List.exists_cons_of_ne_nil hne
      refine ⟨d, y ++ z, rfl, ?_⟩
      rintro rfl
      rw [shuns, hblank d List.mem_cons_self] at hs
      cases hs

end Front

/-- A spelled text starts in one of the ways that its parts allow. The
induction is on the parts: those that may be empty leave it to the next. -/
theorem exists_front {parts : List GuardedPiece} {x : Text} (h : Spells parts x) :
    ∃ f ∈ fronts parts, f.Fits x := by
  induction h with
  | nil => exact ⟨.unknown, List.mem_singleton.mpr rfl, trivial⟩
  | @cons part parts x y hcov _ hspell ih =>
      obtain ⟨piece, banned⟩ := part
      have text : ∀ {t : Text} {c : Char} {u : Text}, t = c :: u → x = t →
          (Front.char c (Matcher.unguarded (.literal u) :: parts)).Fits (x ++ y) := by
        rintro t c u rfl rfl
        exact ⟨u ++ y, rfl, .cons rfl rfl hspell⟩
      have blanks : x ≠ [] → (∀ c ∈ x, Text.isBlank c = true) →
          (Front.run parts).Fits (x ++ y) :=
        fun hne hblank => ⟨x, y, rfl, hne, hblank, hspell⟩
      cases piece with
      | literal t =>
          cases t with
          | nil =>
              obtain rfl : x = [] := hcov
              exact ih
          | cons c u => exact ⟨_, List.mem_singleton.mpr rfl, text rfl hcov⟩
      | keyword t =>
          cases t with
          | nil =>
              obtain rfl : x = [] := hcov
              exact ih
          | cons c u => exact ⟨_, List.mem_singleton.mpr rfl, text rfl hcov⟩
      | optional t =>
          cases t with
          | nil =>
              obtain rfl : x = [] := by simpa [Piece.Covers] using hcov
              exact ih
          | cons c u =>
              rcases hcov with hfull | rfl
              · exact ⟨_, List.mem_cons_self, text rfl hfull⟩
              · obtain ⟨f, hf, hfits⟩ := ih
                exact ⟨f, List.mem_cons_of_mem _ hf, hfits⟩
      | space =>
          by_cases hne : x = []
          · subst hne
            obtain ⟨f, hf, hfits⟩ := ih
            exact ⟨f, List.mem_cons_of_mem _ hf, hfits⟩
          · exact ⟨_, List.mem_cons_self, blanks hne hcov⟩
      | someSpace => exact ⟨_, List.mem_singleton.mpr rfl, blanks hcov.2 hcov.1⟩
      | lineBreak =>
          refine ⟨_, List.mem_singleton.mpr rfl, blanks ?_ hcov.1⟩
          rintro rfl
          cases hcov.2
      | gap => exact ⟨_, List.mem_singleton.mpr rfl, trivial⟩
      | gapWithin n => exact ⟨_, List.mem_singleton.mpr rfl, trivial⟩

theorem Spells.exists_of_sharp {parts : List GuardedPiece} {x : Text} (h : Spells parts x)
    (hs : (fronts parts).all Front.isSharp = true) :
    ∃ c y, x = c :: y ∧ Text.isBlank c = false := by
  obtain ⟨f, hf, hfits⟩ := exists_front h
  exact hfits.exists_of_isSharp (List.all_eq_true.mp hs f hf)

theorem Spells.exists_of_shuns {parts : List GuardedPiece} {x : Text} {c : Char}
    (h : Spells parts x) (hs : (fronts parts).all (Front.shuns c) = true) :
    ∃ d y, x = d :: y ∧ d ≠ c := by
  obtain ⟨f, hf, hfits⟩ := exists_front h
  exact hfits.exists_of_shuns (List.all_eq_true.mp hs f hf)

/-! ## Patterns that are parsed in one way -/

namespace Piece

/-- How the pieces behind it may start leaves one width to the piece. -/
def isForced (pieces : List Piece) : Piece → Bool
  | literal _ | keyword _ => true
  | optional t => t.head?.all fun c => (fronts (pieces.map Matcher.unguarded)).all (Front.shuns c)
  | space | someSpace | lineBreak => (fronts (pieces.map Matcher.unguarded)).all Front.isSharp
  | gap | gapWithin _ => false

def isDefinite : List Piece → Bool
  | [] => true
  | piece :: pieces => piece.isForced pieces && isDefinite pieces

end Piece

theorem IsParse.spells {p : Place} {pieces : List Piece} {ws : List Nat} (h : IsParse p pieces ws) :
    Spells (pieces.map Matcher.unguarded) (p.rest.take (parseWidth ws)) := by
  refine spells_of_isParse ?_ (Matcher.crosses_unguarded pieces p.rest ws)
  rw [Matcher.map_piece_unguarded]
  exact h

theorem IsParse.exists_of_sharp {p : Place} {pieces : List Piece} {ws : List Nat}
    (h : IsParse p pieces ws)
    (hs : (fronts (pieces.map Matcher.unguarded)).all Front.isSharp = true) :
    ∃ c r, p.rest = c :: r ∧ Text.isBlank c = false := by
  obtain ⟨c, y, hy, hc⟩ := h.spells.exists_of_sharp hs
  refine ⟨c, y ++ p.rest.drop (parseWidth ws), ?_, hc⟩
  rw [← List.cons_append, ← hy, List.take_append_drop]

/-- An optional text is there if and only if the text goes on with it. -/
theorem IsParse.eq_of_optional {p : Place} {t : Text} {pieces : List Piece} {w : Nat}
    {ws : List Nat} (hw : w ∈ (Piece.optional t).widths p) (h : IsParse (p.skip w) pieces ws)
    (hf : (Piece.optional t).isForced pieces = true) :
    w = if t.isPrefixOf p.rest then t.length else 0 := by
  simp only [Piece.widths] at hw
  split at hw
  · rename_i hpre
    rcases List.mem_pair.mp hw with rfl | rfl
    · rw [if_pos hpre]
    · cases t with
      | nil => simp
      | cons c u =>
          rw [Place.skip_zero] at h
          obtain ⟨d, y, hy, hne⟩ := h.spells.exists_of_shuns (by simpa [Piece.isForced] using hf)
          obtain ⟨r, hr⟩ := List.isPrefixOf_iff_prefix.mp hpre
          rw [← hr, List.cons_append] at hy
          cases hws : parseWidth ws with
          | zero => simp [hws] at hy
          | succ k =>
              rw [hws, List.take_succ_cons] at hy
              exact absurd (List.cons.inj hy).1.symm hne
  · rename_i hpre
    rw [if_neg hpre]
    exact List.mem_singleton.mp hw

/-- **Definite patterns** are parsed in one way only. -/
theorem IsParse.unique_of_isDefinite {p : Place} {pieces : List Piece} {us vs : List Nat}
    (hd : Piece.isDefinite pieces = true) (hu : IsParse p pieces us) (hv : IsParse p pieces vs) :
    us = vs := by
  induction hu generalizing vs with
  | nil =>
      cases hv with
      | nil => rfl
  | @cons p piece pieces w ws hw hus ih =>
      cases hv with
      | @cons _ _ _ v vs hv hvs =>
          obtain ⟨hforced, hrest⟩ := Bool.and_eq_true _ _ |>.mp hd
          have run : piece.isRun = true →
              (fronts (pieces.map Matcher.unguarded)).all Front.isSharp = true → w = v := by
            intro hrun hsharp
            rw [Piece.eq_run_of_head hrun hw (hus.exists_of_sharp hsharp),
              Piece.eq_run_of_head hrun hv (hvs.exists_of_sharp hsharp)]
          obtain rfl : w = v := by
            cases piece with
            | literal t => exact Piece.eq_of_isText rfl hw hv
            | keyword t => exact Piece.eq_of_isText rfl hw hv
            | optional t => rw [hus.eq_of_optional hw hforced, hvs.eq_of_optional hv hforced]
            | space => exact run rfl hforced
            | someSpace => exact run rfl hforced
            | lineBreak => exact run rfl hforced
            | gap => cases hforced
            | gapWithin n => cases hforced
          rw [ih hrest hvs]

theorem Piece.parsedOnce_of_isDefinite {pieces : List Piece} (h : isDefinite pieces = true) :
    ParsedOnce pieces :=
  fun _ _ _ hu hv => hu.unique_of_isDefinite h hv

/-! ## Patterns that clash -/

/-- No text starts with something spelled by `a` and with something spelled
by `b`, as far as this can be seen within a number of steps. -/
def clashes : Nat → List GuardedPiece → List GuardedPiece → Bool
  | 0, _, _ => false
  | steps + 1, a, b =>
      (fronts a).all fun f => (fronts b).all fun g =>
        match f, g with
        | .char c a, .char d b => c != d || clashes steps a b
        | .char c _, .run _ | .run _, .char c _ => !Text.isBlank c
        | .run a, .run b =>
            (fronts a).all Front.isSharp && (fronts b).all Front.isSharp && clashes steps a b
        | _, _ => false

/-- Runs that end at a character that is not blank are the same. -/
theorem eq_takeWhile_of_sharp {y x z : Text} (hy : ∀ c ∈ y, Text.isBlank c = true)
    (hx : ∃ c r, x = c :: r ∧ Text.isBlank c = false) (h : y ++ x <+: z) :
    y = z.takeWhile Text.isBlank := by
  obtain ⟨c, r, rfl, hc⟩ := hx
  obtain ⟨s, rfl⟩ := h
  rw [List.append_assoc, List.takeWhile_append_of_pos hy, List.cons_append,
    List.takeWhile_cons_of_neg (by simp [hc]), List.append_nil]

theorem isBlank_of_run {y x z r : Text} {c : Char} (hne : y ≠ [])
    (hy : ∀ c ∈ y, Text.isBlank c = true) (h : y ++ x <+: z) (hc : c :: r <+: z) :
    Text.isBlank c = true := by
  obtain ⟨d, y, rfl⟩ := List.exists_cons_of_ne_nil hne
  obtain ⟨s, rfl⟩ := h
  obtain ⟨rfl, -⟩ := List.cons_prefix_cons.mp hc
  exact hy c List.mem_cons_self

/-- **Patterns that clash** are not both spelled at the same place. -/
theorem not_spells_of_clashes {steps : Nat} {a b : List GuardedPiece} {x y z : Text}
    (h : clashes steps a b = true) (ha : Spells a x) (hx : x <+: z) (hb : Spells b y) :
    ¬ y <+: z := by
  induction steps generalizing a b x y z with
  | zero => cases h
  | succ steps ih =>
      intro hy
      obtain ⟨f, hf, hfx⟩ := exists_front ha
      obtain ⟨g, hg, hgy⟩ := exists_front hb
      have hpair := List.all_eq_true.mp (List.all_eq_true.mp h f hf) g hg
      cases f with
      | unknown => cases hpair
      | char c a' =>
          obtain ⟨x', rfl, ha'⟩ := hfx
          cases g with
          | unknown => cases hpair
          | char d b' =>
              obtain ⟨y', rfl, hb'⟩ := hgy
              obtain ⟨z', rfl⟩ := hx
              obtain ⟨rfl, hy'⟩ := List.cons_prefix_cons.mp hy
              exact ih (by simpa using hpair) ha' (List.prefix_append x' z') hb' hy'
          | run b' =>
              obtain ⟨v, y', rfl, hv, hvblank, -⟩ := hgy
              have hink : (!Text.isBlank c) = true := hpair
              rw [isBlank_of_run hv hvblank hy hx] at hink
              cases hink
      | run a' =>
          obtain ⟨u, x', rfl, hu, hublank, ha'⟩ := hfx
          cases g with
          | unknown => cases hpair
          | char d b' =>
              obtain ⟨y', rfl, -⟩ := hgy
              have hink : (!Text.isBlank d) = true := hpair
              rw [isBlank_of_run hu hublank hx hy] at hink
              cases hink
          | run b' =>
              obtain ⟨v, y', rfl, -, hvblank, hb'⟩ := hgy
              simp only [Bool.and_eq_true] at hpair
              obtain ⟨⟨hasharp, hbsharp⟩, hclash⟩ := hpair
              have hua := eq_takeWhile_of_sharp hublank (ha'.exists_of_sharp hasharp) hx
              have hvb := eq_takeWhile_of_sharp hvblank (hb'.exists_of_sharp hbsharp) hy
              obtain rfl : u = v := hua.trans hvb.symm
              obtain ⟨z', rfl⟩ := hx
              rw [List.append_assoc, List.prefix_append_right_inj] at hy
              exact ih hclash ha' (List.prefix_append x' z') hb' hy

/-- What `other` spells does not start within a spelled text behind its
first character, if all residuals clash with it. -/
theorem Spells.not_spells_behind {c : Char} {u : Text} {parts other : List GuardedPiece}
    {x y z : Text} (h : Spells (Matcher.unguarded (.literal (c :: u)) :: parts) x) (hx : x <+: z)
    {steps : Nat}
    (hfree : (residuals (Matcher.unguarded (.literal u) :: parts)).all
      (clashes steps · other) = true)
    (hy : Spells other y) {k : Nat} (hpos : 0 < k) (hk : k < x.length) : ¬ y <+: z.drop k := by
  obtain ⟨rest, hmem, hrest⟩ := h.exists_residual_behind hpos hk
  exact not_spells_of_clashes (List.all_eq_true.mp hfree rest hmem) hrest
    (List.IsPrefix.drop hx k) hy

end Upkeep
