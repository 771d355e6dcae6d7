import Upkeep.Proofs.Preference
import Upkeep.Proofs.Splice
import Upkeep.Proofs.Split

/-!
# What a scan finds

A matcher scans a text by moving through a row of preferred parses. This
file says what it finds without mentioning parses, rows or places.

At a character of the text a pattern *matches* if the first split there,
in the order of preference, straddles no anchor (`Matches`). The spans that
a matcher finds are told in two ways. `Scans` goes from character to
character: it takes the match if there is one, and otherwise moves on by
one. `Searches` goes from split to split: it looks for the next character
where the pattern can be split at all, takes the first split there or
gives the character up, and resumes at the end of the one or one character
behind the other. Both describe `Matcher.findAll` and nothing else
(`scans_iff`, `searches_iff`).

`Matcher.findAll_sound` says what every span is, and
`Matcher.findAll_complete` that no match is passed over.
-/

namespace Upkeep

/-! ## First splits -/

/-- A split that comes first in the order of preference. -/
def IsFirstSplit (t : Text) (n : Nat) (pieces : List Piece) (xs : List Text) : Prop :=
  Split t n pieces xs ∧ ∀ ys, Split t n pieces ys →
    ys = xs ∨ Precedes pieces (xs.map List.length) (ys.map List.length)

theorem IsParse.map_length_slices {p : Place} {pieces : List Piece} {ws : List Nat}
    (h : IsParse p pieces ws) : (slices p.rest ws).map List.length = ws := by
  induction h with
  | nil => rfl
  | @cons p piece pieces w ws hw _ ih =>
      rw [Place.rest_skip] at ih
      rw [slices, List.map_cons, ih, List.length_take,
        Nat.min_eq_left (Piece.le_of_mem_widths hw)]

/-- The first parse marks off the first split. -/
theorem isFirstSplit_slices {t : Text} {n : Nat} {pieces : List Piece} {ws : List Nat}
    (hn : n ≤ t.length) (h : IsFirstParse ((Place.start t).skip n) pieces ws) :
    IsFirstSplit t n pieces (slices (t.drop n) ws) := by
  have hlengths := h.1.map_length_slices
  rw [Place.rest_skip, Place.rest_start] at hlengths
  refine ⟨split_of_isParse hn h.1, ?_⟩
  intro ys hys
  rw [hlengths]
  rcases h.2 _ (hys.isParse hn) with heq | hbefore
  · rw [← heq, hys.slices_map_length]
    exact .inl rfl
  · exact .inr hbefore

theorem IsFirstSplit.isFirstParse {t : Text} {n : Nat} {pieces : List Piece} {xs : List Text}
    (h : IsFirstSplit t n pieces xs) (hn : n ≤ t.length) :
    IsFirstParse ((Place.start t).skip n) pieces (xs.map List.length) := by
  refine ⟨h.1.isParse hn, ?_⟩
  intro vs hvs
  have hlengths := hvs.map_length_slices
  rw [Place.rest_skip, Place.rest_start] at hlengths
  have hcases := h.2 _ (split_of_isParse hn hvs)
  rw [hlengths] at hcases
  rcases hcases with heq | hbefore
  · rw [← heq, hlengths]
    exact .inl rfl
  · exact .inr hbefore

theorem IsFirstSplit.unique {t : Text} {n : Nat} {pieces : List Piece} {xs ys : List Text}
    (hx : IsFirstSplit t n pieces xs) (hy : IsFirstSplit t n pieces ys) (hn : n ≤ t.length) :
    xs = ys := by
  have hlengths := (hx.isFirstParse hn).unique (hy.isFirstParse hn)
  rw [← hx.1.slices_map_length, hlengths, hy.1.slices_map_length]

theorem exists_isFirstSplit {t : Text} {n : Nat} {pieces : List Piece} {xs : List Text}
    (h : Split t n pieces xs) (hn : n ≤ t.length) : ∃ ys, IsFirstSplit t n pieces ys := by
  obtain ⟨ws, hws⟩ := Option.isSome_iff_exists.mp (isSome_preferred (h.isParse hn))
  exact ⟨_, isFirstSplit_slices hn (isFirstParse_of_preferred hws)⟩

/-- The pattern is matched by the stretches `xs` at character `n`: they are
the first split there, and no gap of it straddles an anchor. -/
def Matches (t : Text) (n : Nat) (pieces : List Piece) (xs : List Text) : Prop :=
  IsFirstSplit t n pieces xs ∧ ¬ Straddles pieces xs

theorem Split.end_le {t : Text} {n : Nat} {pieces : List Piece} {xs : List Text}
    (h : Split t n pieces xs) (hn : n ≤ t.length) : n + xs.flatten.length ≤ t.length := by
  have hle := h.flatten_prefix_drop.length_le
  rw [List.length_drop] at hle
  omega

namespace Matcher

variable {rule : String} {pieces : List Piece} {m : Matcher} {t : Text}

/-- **A matcher matches** where its pattern does. -/
theorem width?_eq_some_iff_matches (hm : compile rule pieces = .ok m) {n : Nat}
    (hn : n ≤ t.length) {w : Nat} :
    m.width? ((Place.start t).skip n) = some w ↔
      ∃ xs, Matches t n pieces xs ∧ xs.flatten.length = w := by
  have hpieces := (pieces_of_compile hm).1
  rw [width?_eq_some_iff, hpieces, Place.rest_skip, Place.rest_start]
  constructor
  · rintro ⟨ws, hpref, hfree, rfl⟩
    have hfirst := preferred_eq_some_iff.mp hpref
    refine ⟨slices (t.drop n) ws, ⟨isFirstSplit_slices hn hfirst, fun hstr => ?_⟩, ?_⟩
    · rw [(crosses_iff_straddles hm _ _).mpr hstr] at hfree
      cases hfree
    · have hle := hfirst.1.parseWidth_le
      rw [Place.rest_skip] at hle
      rw [flatten_slices, List.length_take]
      exact Nat.min_eq_left hle
  · rintro ⟨xs, ⟨hfirst, hclear⟩, rfl⟩
    have hfree := crosses_eq_false_of_split hm hfirst.1 hclear
    rw [Place.rest_skip, Place.rest_start] at hfree
    exact ⟨xs.map List.length, preferred_eq_some_iff.mpr (hfirst.isFirstParse hn), hfree,
      parseWidth_map_length xs⟩

theorem width?_eq_none_iff_matches (hm : compile rule pieces = .ok m) {n : Nat}
    (hn : n ≤ t.length) :
    m.width? ((Place.start t).skip n) = none ↔ ∀ xs, ¬ Matches t n pieces xs := by
  constructor
  · intro h xs hxs
    rw [(width?_eq_some_iff_matches hm hn).mpr ⟨xs, hxs, rfl⟩] at h
    cases h
  · intro h
    cases hw : m.width? ((Place.start t).skip n) with
    | none => rfl
    | some w =>
        obtain ⟨xs, hxs, -⟩ := (width?_eq_some_iff_matches hm hn).mp hw
        exact absurd hxs (h xs)

theorem pos_of_split (hm : compile rule pieces = .ok m) {n : Nat} {xs : List Text}
    (h : Split t n pieces xs) (hn : n ≤ t.length) : 0 < xs.flatten.length := by
  rw [← parseWidth_map_length]
  exact parseWidth_pos_of_compile hm (h.isParse hn)

/-! ## The scan, character by character -/

/-- What the scan finds from character `n` on. -/
def spansFrom (m : Matcher) (t : Text) (n : Nat) : List Span :=
  m.findFrom ((Place.start t).skip n).before n 0 (t.drop n)

theorem findAll_eq_spansFrom (m : Matcher) (t : Text) : m.findAll t = m.spansFrom t 0 := by
  rw [findAll_eq_findFrom, spansFrom, Place.skip_zero, List.drop_zero]
  rfl

/-- Passing over the characters of a match is skipping them. -/
theorem findFrom_covered (m : Matcher) (b : Option Char) (pos k : Nat) (t : Text) :
    m.findFrom b pos k t
      = m.findFrom (Place.skip ⟨b, t⟩ k).before (pos + k) 0 (t.drop k) := by
  induction t generalizing b pos k with
  | nil => simp [findFrom]
  | cons c t ih =>
      cases k with
      | zero => simp
      | succ k =>
          show m.findFrom (some c) (pos + 1) k t = _
          rw [ih, Place.skip, List.drop_succ_cons, Nat.add_right_comm, Nat.add_assoc]

theorem spansFrom_length (m : Matcher) (t : Text) : m.spansFrom t t.length = [] := by
  rw [spansFrom, List.drop_length]
  rfl

theorem drop_eq_cons {n : Nat} (hn : n < t.length) : ∃ c, t.drop n = c :: t.drop (n + 1) :=
  ⟨t.get ⟨n, hn⟩, List.drop_eq_getElem_cons hn⟩

theorem place_eq (t : Text) (n : Nat) :
    (Place.start t).skip n = ⟨((Place.start t).skip n).before, t.drop n⟩ := by
  have h := Place.rest_skip (Place.start t) n
  rw [Place.rest_start] at h
  rw [← h]

theorem place_behind {n : Nat} {c : Char} {r : Text} (hc : t.drop n = c :: r) (k : Nat) :
    (Place.start t).skip (n + (k + 1)) = Place.skip ⟨some c, r⟩ k := by
  rw [← Place.skip_skip, place_eq, hc]
  rfl

theorem spansFrom_of_none {n : Nat} (hn : n < t.length)
    (h : m.width? ((Place.start t).skip n) = none) :
    m.spansFrom t n = m.spansFrom t (n + 1) := by
  obtain ⟨c, hc⟩ := drop_eq_cons hn
  rw [place_eq, hc] at h
  rw [spansFrom, hc, findFrom, h, spansFrom, place_behind hc 0, Place.skip_zero]

theorem spansFrom_of_some {n w : Nat} (hpos : 0 < w)
    (h : m.width? ((Place.start t).skip n) = some w) :
    m.spansFrom t n = ⟨n, n + w⟩ :: m.spansFrom t (n + w) := by
  have hle := (spells_of_width? h).2
  rw [Place.rest_skip, Place.rest_start, List.length_drop] at hle
  obtain ⟨c, hc⟩ := drop_eq_cons (t := t) (n := n) (by omega)
  obtain ⟨k, rfl⟩ : ∃ k, w = k + 1 := ⟨w - 1, by omega⟩
  have hadd : n + (k + 1) = n + 1 + k := by omega
  have hrest : t.drop (n + (k + 1)) = (t.drop (n + 1)).drop k := by
    rw [List.drop_drop, hadd]
  rw [place_eq, hc] at h
  rw [spansFrom, hc, findFrom, h]
  show _ :: m.findFrom (some c) (n + 1) k (t.drop (n + 1)) = _
  rw [findFrom_covered, spansFrom, place_behind hc k, hrest, hadd]

end Matcher

/-- The reference scan from character `n` on. -/
inductive Scans (t : Text) (pieces : List Piece) : Nat → List Span → Prop where
  | done : Scans t pieces t.length []
  | take {n : Nat} {xs : List Text} {spans : List Span} : Matches t n pieces xs →
      Scans t pieces (n + xs.flatten.length) spans →
        Scans t pieces n (⟨n, n + xs.flatten.length⟩ :: spans)
  | step {n : Nat} {spans : List Span} : n < t.length → (∀ xs, ¬ Matches t n pieces xs) →
      Scans t pieces (n + 1) spans → Scans t pieces n spans

namespace Matcher

variable {rule : String} {pieces : List Piece} {m : Matcher} {t : Text}

theorem scans_spansFrom (hm : compile rule pieces = .ok m) {n : Nat} (hn : n ≤ t.length) :
    Scans t pieces n (m.spansFrom t n) := by
  -- the characters left become fewer, whether one is passed or a match taken
  induction hleft : t.length - n using Nat.strongRecOn generalizing n with
  | _ left ih =>
      rcases Nat.eq_or_lt_of_le hn with rfl | hlt
      · rw [spansFrom_length]
        exact .done
      · cases hw : m.width? ((Place.start t).skip n) with
        | none =>
            rw [spansFrom_of_none hlt hw]
            exact .step hlt ((width?_eq_none_iff_matches hm hn).mp hw)
              (ih _ (by omega) hlt rfl)
        | some w =>
            have hpos := pos_of_compile hm hw
            rw [spansFrom_of_some hpos hw]
            obtain ⟨xs, hxs, rfl⟩ := (width?_eq_some_iff_matches hm hn).mp hw
            exact .take hxs (ih _ (by omega) (hxs.1.1.end_le hn) rfl)

theorem eq_spansFrom_of_scans (hm : compile rule pieces = .ok m) {n : Nat} {spans : List Span}
    (h : Scans t pieces n spans) (hn : n ≤ t.length) : spans = m.spansFrom t n := by
  induction h with
  | done => rw [spansFrom_length]
  | @take n xs spans hxs _ ih =>
      have hw := (width?_eq_some_iff_matches hm hn).mpr ⟨xs, hxs, rfl⟩
      rw [spansFrom_of_some (pos_of_split hm hxs.1.1 hn) hw, ← ih (hxs.1.1.end_le hn)]
  | step hlt hnone _ ih =>
      rw [spansFrom_of_none hlt ((width?_eq_none_iff_matches hm hn).mpr hnone), ← ih hlt]

/-- **The matcher finds** what the reference scan finds. -/
theorem scans_iff (hm : compile rule pieces = .ok m) {spans : List Span} :
    Scans t pieces 0 spans ↔ spans = m.findAll t := by
  rw [findAll_eq_spansFrom]
  constructor
  · intro h
    exact eq_spansFrom_of_scans hm h (Nat.zero_le _)
  · rintro rfl
    exact scans_spansFrom hm (Nat.zero_le _)

end Matcher

/-- Every span of a scan is a match. -/
theorem Scans.matches_of_mem {t : Text} {pieces : List Piece} {n : Nat} {spans : List Span}
    (h : Scans t pieces n spans) (hn : n ≤ t.length) {s : Span} (hs : s ∈ spans) :
    s.start ≤ t.length
      ∧ ∃ xs, Matches t s.start pieces xs ∧ s.stop = s.start + xs.flatten.length := by
  induction h with
  | done => cases hs
  | @take n xs spans hxs _ ih =>
      rcases List.mem_cons.mp hs with rfl | hs
      · exact ⟨hn, xs, hxs, rfl⟩
      · exact ih (hxs.1.1.end_le hn) hs
  | step hlt _ _ ih => exact ih hlt hs

/-- A scan passes over no match: a character that is in no span starts
none. -/
theorem Scans.covered_or {t : Text} {pieces : List Piece} {n : Nat} {spans : List Span}
    (h : Scans t pieces n spans) {k : Nat} (hnk : n ≤ k) (hk : k < t.length) :
    (∃ s ∈ spans, s.start ≤ k ∧ k < s.stop) ∨ ∀ xs, ¬ Matches t k pieces xs := by
  induction h with
  | done => omega
  | @take n xs spans hxs _ ih =>
      by_cases hin : k < n + xs.flatten.length
      · exact .inl ⟨_, List.mem_cons_self .., hnk, hin⟩
      · rcases ih (by omega) with ⟨s, hs, hcover⟩ | hnone
        · exact .inl ⟨s, List.mem_cons_of_mem _ hs, hcover⟩
        · exact .inr hnone
  | @step n spans _ hnone _ ih =>
      rcases Nat.eq_or_lt_of_le hnk with rfl | hlt
      · exact .inr hnone
      · exact ih hlt

/-! ## The scan, search by search -/

/-- A search from character `n` on ends at character `k`: there the pattern
can be split, first of all into `xs`, and nowhere before. -/
structure Finds (t : Text) (pieces : List Piece) (n k : Nat) (xs : List Text) : Prop where
  le : n ≤ k
  le_length : k ≤ t.length
  first : IsFirstSplit t k pieces xs
  none_before : ∀ j, n ≤ j → j < k → ∀ ys, ¬ Split t j pieces ys

/-- Searches one after the other, from character `n` on. -/
inductive Searches (t : Text) (pieces : List Piece) : Nat → List Span → Prop where
  | done {n : Nat} : (∀ k, n ≤ k → k ≤ t.length → ∀ xs, ¬ Split t k pieces xs) →
      Searches t pieces n []
  | accept {n k : Nat} {xs : List Text} {spans : List Span} : Finds t pieces n k xs →
      ¬ Straddles pieces xs → Searches t pieces (k + xs.flatten.length) spans →
        Searches t pieces n (⟨k, k + xs.flatten.length⟩ :: spans)
  | reject {n k : Nat} {xs : List Text} {spans : List Span} : Finds t pieces n k xs →
      Straddles pieces xs → Searches t pieces (k + 1) spans → Searches t pieces n spans

/-- A search may as well start earlier where nothing can be split. -/
theorem Searches.earlier {t : Text} {pieces : List Piece} {n : Nat} {spans : List Span}
    (hnone : ∀ xs, ¬ Split t n pieces xs) (h : Searches t pieces (n + 1) spans) :
    Searches t pieces n spans := by
  have hfinds : ∀ {k xs}, Finds t pieces (n + 1) k xs → Finds t pieces n k xs := by
    intro k xs hk
    refine ⟨Nat.le_of_succ_le hk.le, hk.le_length, hk.first, ?_⟩
    intro j hnj hjk
    rcases Nat.eq_or_lt_of_le hnj with rfl | hlt
    · exact hnone
    · exact hk.none_before j hlt hjk
  cases h with
  | done hrest =>
      refine .done ?_
      intro k hnk hk
      rcases Nat.eq_or_lt_of_le hnk with rfl | hlt
      · exact hnone
      · exact hrest k hlt hk
  | accept hk hclear htail => exact .accept (hfinds hk) hclear htail
  | reject hk hstr htail => exact .reject (hfinds hk) hstr htail

namespace Matcher

variable {rule : String} {pieces : List Piece} {m : Matcher} {t : Text}

theorem not_split_at_end (hm : compile rule pieces = .ok m) (xs : List Text) :
    ¬ Split t t.length pieces xs := by
  intro h
  have hpos := pos_of_split hm h (Nat.le_refl _)
  have hle := h.end_le (Nat.le_refl _)
  omega

theorem spansFrom_of_not_split (hm : compile rule pieces = .ok m) {n k : Nat} (hnk : n ≤ k)
    (hk : k ≤ t.length) (hnone : ∀ j, n ≤ j → j < k → ∀ xs, ¬ Split t j pieces xs) :
    m.spansFrom t n = m.spansFrom t k := by
  induction hnk with
  | refl => rfl
  | @step k hle ih =>
      rw [ih (Nat.le_of_succ_le hk) fun j hnj hjk => hnone j hnj (by omega)]
      refine spansFrom_of_none hk ((width?_eq_none_iff_matches hm (Nat.le_of_succ_le hk)).mpr ?_)
      intro xs hxs
      exact hnone k hle (Nat.lt_succ_self k) xs hxs.1.1

/-- Where the first split straddles an anchor, the scan moves on. -/
theorem spansFrom_of_straddles (hm : compile rule pieces = .ok m) {n : Nat} (hn : n ≤ t.length)
    {xs : List Text} (hfirst : IsFirstSplit t n pieces xs) (hstr : Straddles pieces xs) :
    n < t.length ∧ m.spansFrom t n = m.spansFrom t (n + 1) := by
  have hpos := pos_of_split hm hfirst.1 hn
  have hlt : n < t.length := by
    have hle := hfirst.1.end_le hn
    omega
  refine ⟨hlt, spansFrom_of_none hlt ((width?_eq_none_iff_matches hm hn).mpr ?_)⟩
  intro ys hys
  obtain rfl := hys.1.unique hfirst hn
  exact hys.2 hstr

theorem spansFrom_of_matches (hm : compile rule pieces = .ok m) {n : Nat} (hn : n ≤ t.length)
    {xs : List Text} (h : Matches t n pieces xs) :
    m.spansFrom t n = ⟨n, n + xs.flatten.length⟩ :: m.spansFrom t (n + xs.flatten.length) :=
  spansFrom_of_some (pos_of_split hm h.1.1 hn) ((width?_eq_some_iff_matches hm hn).mpr ⟨xs, h, rfl⟩)

theorem searches_spansFrom (hm : compile rule pieces = .ok m) {n : Nat} (hn : n ≤ t.length) :
    Searches t pieces n (m.spansFrom t n) := by
  induction hleft : t.length - n using Nat.strongRecOn generalizing n with
  | _ left ih =>
      by_cases hsplit : ∃ xs, Split t n pieces xs
      · obtain ⟨xs, hxs⟩ := hsplit
        obtain ⟨ys, hys⟩ := exists_isFirstSplit hxs hn
        have hfinds : Finds t pieces n n ys :=
          ⟨Nat.le_refl n, hn, hys, fun j hnj hjn => by omega⟩
        by_cases hstr : Straddles pieces ys
        · obtain ⟨hlt, heq⟩ := spansFrom_of_straddles hm hn hys hstr
          rw [heq]
          exact .reject hfinds hstr (ih _ (by omega) hlt rfl)
        · have hpos := pos_of_split hm hys.1 hn
          have hend := hys.1.end_le hn
          rw [spansFrom_of_matches hm hn ⟨hys, hstr⟩]
          exact .accept hfinds hstr (ih _ (by omega) hend rfl)
      · have hnone : ∀ xs, ¬ Split t n pieces xs := fun xs hxs => hsplit ⟨xs, hxs⟩
        rcases Nat.eq_or_lt_of_le hn with rfl | hlt
        · rw [spansFrom_length]
          refine .done ?_
          intro k hnk hk
          obtain rfl := Nat.le_antisymm hk hnk
          exact hnone
        · have hstep : m.spansFrom t n = m.spansFrom t (n + 1) := by
            refine spansFrom_of_not_split hm (Nat.le_succ n) hlt ?_
            intro j hnj hjn
            obtain rfl : j = n := by omega
            exact hnone
          rw [hstep]
          exact .earlier hnone (ih _ (by omega) hlt rfl)

theorem eq_spansFrom_of_searches (hm : compile rule pieces = .ok m) {n : Nat}
    {spans : List Span} (h : Searches t pieces n spans) (hn : n ≤ t.length) :
    spans = m.spansFrom t n := by
  induction h with
  | @done n hnone =>
      rw [spansFrom_of_not_split hm hn (Nat.le_refl _) fun j hnj hj => hnone j hnj (by omega),
        spansFrom_length]
  | @accept n k xs spans hk hclear _ ih =>
      rw [spansFrom_of_not_split hm hk.le hk.le_length hk.none_before,
        spansFrom_of_matches hm hk.le_length ⟨hk.first, hclear⟩,
        ← ih (hk.first.1.end_le hk.le_length)]
  | @reject n k xs spans hk hstr _ ih =>
      obtain ⟨hlt, heq⟩ := spansFrom_of_straddles hm hk.le_length hk.first hstr
      rw [spansFrom_of_not_split hm hk.le hk.le_length hk.none_before, heq, ← ih hlt]

/-- **The matcher finds** what a search after the other finds. -/
theorem searches_iff (hm : compile rule pieces = .ok m) {spans : List Span} :
    Searches t pieces 0 spans ↔ spans = m.findAll t := by
  rw [findAll_eq_spansFrom]
  constructor
  · intro h
    exact eq_spansFrom_of_searches hm h (Nat.zero_le _)
  · rintro rfl
    exact searches_spansFrom hm (Nat.zero_le _)

end Matcher

/-! ## Spans in bytes -/

namespace Text

theorem byteSize_take_add (t : Text) (n k : Nat) :
    byteSize (t.take (n + k)) = byteSize (t.take n) + byteSize ((t.drop n).take k) := by
  rw [List.take_add, byteSize_append]

theorem byteSize_take_mono (t : Text) {n k : Nat} (h : n ≤ k) :
    byteSize (t.take n) ≤ byteSize (t.take k) := by
  obtain ⟨d, rfl⟩ := Nat.exists_eq_add_of_le h
  rw [byteSize_take_add]
  omega

theorem byteSize_pos {t : Text} (h : t ≠ []) : 0 < byteSize t := by
  cases t with
  | nil => exact absurd rfl h
  | cons c t => exact Nat.add_pos_left c.utf8Size_pos _

theorem byteSize_take_lt {t : Text} {n k : Nat} (h : n < k) (hk : k ≤ t.length) :
    byteSize (t.take n) < byteSize (t.take k) := by
  obtain ⟨d, rfl⟩ := Nat.exists_eq_add_of_lt h
  have hne : (t.drop n).take (d + 1) ≠ [] := by
    rw [ne_eq, List.take_eq_nil_iff, List.drop_eq_nil_iff]
    omega
  have hpos := byteSize_pos hne
  rw [Nat.add_assoc, byteSize_take_add]
  omega

end Text

namespace Utf8

theorem take_encode (t : Text) (n : Nat) :
    (encode t).take (Text.byteSize (t.take n)) = encode (t.take n) := by
  have h : encode (t.take n) ++ encode (t.drop n) = encode t := by
    rw [← encode_append, List.take_append_drop]
  rw [← h, ← length_encode]
  exact List.take_left

theorem drop_encode (t : Text) (n : Nat) :
    (encode t).drop (Text.byteSize (t.take n)) = encode (t.drop n) := by
  have h : encode (t.take n) ++ encode (t.drop n) = encode t := by
    rw [← encode_append, List.take_append_drop]
  rw [← h, ← length_encode]
  exact List.drop_left

end Utf8

namespace Span

/-- The stretch of the text that a span marks. -/
def slice (t : Text) (s : Span) : Text := (t.take s.stop).drop s.start

/-- The span marks a stretch of the text that is not empty, and in bytes
its ends fall between characters: what lies before, within and behind them
is text again. -/
structure Fits (t : Text) (s : Span) : Prop where
  start_lt_stop : s.start < s.stop
  stop_le_length : s.stop ≤ t.length
  bytes_lt : (s.inBytes t).1 < (s.inBytes t).2
  bytes_le : (s.inBytes t).2 ≤ (Utf8.encode t).length
  before : Utf8.decode ((Utf8.encode t).take (s.inBytes t).1) = .ok (t.take s.start)
  within :
    Utf8.decode (((Utf8.encode t).take (s.inBytes t).2).drop (s.inBytes t).1) = .ok (s.slice t)
  behind : Utf8.decode ((Utf8.encode t).drop (s.inBytes t).2) = .ok (t.drop s.stop)

theorem fits_of_lt {t : Text} {s : Span} (hlt : s.start < s.stop) (hle : s.stop ≤ t.length) :
    s.Fits t where
  start_lt_stop := hlt
  stop_le_length := hle
  bytes_lt := Text.byteSize_take_lt hlt hle
  bytes_le := by
    have h := congrArg List.length (Utf8.take_encode t s.stop)
    rw [List.length_take, Utf8.length_encode (t.take s.stop)] at h
    show Text.byteSize (t.take s.stop) ≤ _
    omega
  before := by
    show Utf8.decode ((Utf8.encode t).take (Text.byteSize (t.take s.start))) = _
    rw [Utf8.take_encode, Utf8.decode_encode]
  within := by
    show Utf8.decode (((Utf8.encode t).take (Text.byteSize (t.take s.stop))).drop
      (Text.byteSize (t.take s.start))) = _
    have hfront : (t.take s.stop).take s.start = t.take s.start := by
      rw [List.take_take, Nat.min_eq_left (Nat.le_of_lt hlt)]
    rw [Utf8.take_encode, ← hfront, Utf8.drop_encode, Utf8.decode_encode]
    rfl
  behind := by
    show Utf8.decode ((Utf8.encode t).drop (Text.byteSize (t.take s.stop))) = _
    rw [Utf8.drop_encode, Utf8.decode_encode]

end Span

/-! ## Soundness and completeness -/

namespace Matcher

theorem matches_of_mem_findAll {rule : String} {pieces : List Piece} {m : Matcher} {t : Text}
    (hm : compile rule pieces = .ok m) {s : Span} (hs : s ∈ m.findAll t) :
    s.start ≤ t.length
      ∧ ∃ xs, Matches t s.start pieces xs ∧ s.stop = s.start + xs.flatten.length :=
  ((scans_iff hm).mpr rfl).matches_of_mem (Nat.zero_le _) hs

theorem covered_or_not_matches {rule : String} {pieces : List Piece} {m : Matcher} {t : Text}
    (hm : compile rule pieces = .ok m) {n : Nat} (hn : n ≤ t.length) :
    (∃ s ∈ m.findAll t, s.start ≤ n ∧ n < s.stop) ∨ ∀ xs, ¬ Matches t n pieces xs := by
  rcases Nat.eq_or_lt_of_le hn with rfl | hlt
  · exact .inr fun xs hxs => not_split_at_end hm xs hxs.1.1
  · exact ((scans_iff hm).mpr rfl).covered_or (Nat.zero_le n) hlt

/-- A pattern with a gap: what is fenced in by `begins` and `end!`, with an
`x` before it. -/
def fenced : List Piece :=
  [.literal "x".toList, .space, .keyword "begins".toList, .gap, .literal "end!".toList]

def fencedMatcher : Matcher := ⟨"begins".toList, guarded "begins".toList none fenced⟩

/-- A text with a fence that is begun twice. -/
def fencedText : Text := "x begins é x begins b end!".toList

/-- **Soundness.** Whatever the pattern and the text, the spans found are
in order and disjoint, in characters and in bytes. Each is a stretch of the
text that is not empty and starts and ends between characters, and it is
split into a stretch for each piece, of which no gap straddles an anchor. -/
theorem findAll_sound {rule : String} {pieces : List Piece} {m : Matcher}
    (hm : compile rule pieces = .ok m) (t : Text) :
    (m.findAll t).Pairwise
        (fun s s' => s.stop ≤ s'.start ∧ (s.inBytes t).2 ≤ (s'.inBytes t).1)
      ∧ ∀ s ∈ m.findAll t, s.Fits t
        ∧ ∃ xs, xs.flatten = s.slice t ∧ Split t s.start pieces xs ∧ ¬ Straddles pieces xs := by
  constructor
  · rw [findAll_eq_findFrom]
    refine (pairwise_findFrom m none 0 0 t).imp ?_
    intro s s' hle
    exact ⟨hle, Text.byteSize_take_mono t hle⟩
  · intro s hs
    obtain ⟨hstart, xs, hxs, hstop⟩ := matches_of_mem_findAll hm hs
    have hpos := pos_of_split hm hxs.1.1 hstart
    have hend := hxs.1.1.end_le hstart
    refine ⟨Span.fits_of_lt (by omega) (by omega), xs, ?_, hxs.1.1, hxs.2⟩
    rw [Span.slice, hstop, ← List.take_drop]
    exact List.prefix_iff_eq_take.mp hxs.1.1.flatten_prefix_drop

theorem findAll_sound_fenced :
    compile "fenced" fenced = .ok fencedMatcher ∧ fencedMatcher.findAll fencedText = [⟨11, 26⟩]
      ∧ Span.Fits fencedText ⟨11, 26⟩
      ∧ ∃ xs, xs.flatten = "x begins b end!".toList ∧ Split fencedText 11 fenced xs
        ∧ ¬ Straddles fenced xs := by
  have hm : compile "fenced" fenced = .ok fencedMatcher := rfl
  have hfound : fencedMatcher.findAll fencedText = [⟨11, 26⟩] := by decide
  have hmem : (⟨11, 26⟩ : Span) ∈ fencedMatcher.findAll fencedText := by
    rw [hfound]
    exact List.mem_singleton.mpr rfl
  have hslice : Span.slice fencedText ⟨11, 26⟩ = "x begins b end!".toList := by decide
  obtain ⟨hfits, xs, hxs, hsplit, hclear⟩ := (findAll_sound hm fencedText).2 _ hmem
  exact ⟨hm, hfound, hfits, xs, hxs.trans hslice, hsplit, hclear⟩

/-- **Completeness.** Whatever the pattern and the text, a character that
lies in no span starts no split at all, or one that is given up since its
first split straddles an anchor. A span is the extent of the first split
where it starts. So the spans are those of the reference scan, and those of
one search after the other, and there is one unless nothing matches. -/
theorem findAll_complete {rule : String} {pieces : List Piece} {m : Matcher}
    (hm : compile rule pieces = .ok m) (t : Text) :
    (∀ n ≤ t.length, (∃ s ∈ m.findAll t, s.start ≤ n ∧ n < s.stop)
        ∨ (∀ xs, ¬ Split t n pieces xs)
        ∨ ∃ xs, IsFirstSplit t n pieces xs ∧ Straddles pieces xs)
      ∧ (∀ s ∈ m.findAll t, s.start ≤ t.length
        ∧ ∃ xs, IsFirstSplit t s.start pieces xs ∧ ¬ Straddles pieces xs
          ∧ s.stop = s.start + xs.flatten.length)
      ∧ (∀ spans, Scans t pieces 0 spans ↔ spans = m.findAll t)
      ∧ (∀ spans, Searches t pieces 0 spans ↔ spans = m.findAll t)
      ∧ (m.isMatch t = true ↔ ∃ n ≤ t.length, ∃ xs, IsFirstSplit t n pieces xs
          ∧ ¬ Straddles pieces xs) := by
  refine ⟨?_, ?_, fun spans => scans_iff hm, fun spans => searches_iff hm, ?_⟩
  · intro n hn
    rcases covered_or_not_matches hm hn with hcovered | hnone
    · exact .inl hcovered
    · by_cases hsplit : ∃ xs, Split t n pieces xs
      · obtain ⟨xs, hxs⟩ := hsplit
        obtain ⟨ys, hys⟩ := exists_isFirstSplit hxs hn
        by_cases hstr : Straddles pieces ys
        · exact .inr (.inr ⟨ys, hys, hstr⟩)
        · exact absurd ⟨hys, hstr⟩ (hnone ys)
      · exact .inr (.inl fun xs hxs => hsplit ⟨xs, hxs⟩)
  · intro s hs
    obtain ⟨hstart, xs, hxs, hstop⟩ := matches_of_mem_findAll hm hs
    exact ⟨hstart, xs, hxs.1, hxs.2, hstop⟩
  · rw [isMatch, Bool.not_eq_true', List.isEmpty_eq_false_iff_exists_mem]
    constructor
    · rintro ⟨s, hs⟩
      obtain ⟨hstart, xs, hxs, -⟩ := matches_of_mem_findAll hm hs
      exact ⟨s.start, hstart, xs, hxs⟩
    · rintro ⟨n, hn, xs, hxs⟩
      rcases covered_or_not_matches hm hn with ⟨s, hs, -⟩ | hnone
      · exact ⟨s, hs⟩
      · exact absurd hxs (hnone xs)

/-- The pattern can be split at the first `x`, but only across the second
`begins`. -/
theorem findAll_complete_fenced :
    compile "fenced" fenced = .ok fencedMatcher ∧ fencedMatcher.findAll fencedText = [⟨11, 26⟩]
      ∧ (∃ xs, IsFirstSplit fencedText 0 fenced xs ∧ Straddles fenced xs)
      ∧ ∃ xs, IsFirstSplit fencedText 11 fenced xs ∧ ¬ Straddles fenced xs
        ∧ 26 = 11 + xs.flatten.length := by
  have hm : compile "fenced" fenced = .ok fencedMatcher := rfl
  have hfound : fencedMatcher.findAll fencedText = [⟨11, 26⟩] := by decide
  have hblank : Piece.space.Covers " ".toList := by
    show ∀ c ∈ [' '], Text.isBlank c = true
    intro c hc
    obtain rfl := List.mem_singleton.mp hc
    rfl
  have hsplit : Split fencedText 0 fenced
      ["x".toList, " ".toList, "begins".toList, " é x begins b ".toList, "end!".toList] :=
    .cons (by decide) rfl trivial <| .cons (by decide) hblank trivial <|
      .cons (by decide) rfl ⟨by decide, by decide⟩ <| .cons (by decide) trivial trivial <|
        .cons (by decide) rfl trivial (.nil _)
  have hcomplete := findAll_complete hm fencedText
  rw [hfound] at hcomplete
  refine ⟨hm, hfound, ?_, (hcomplete.2.1 _ (List.mem_singleton.mpr rfl)).2⟩
  rcases hcomplete.1 0 (Nat.zero_le _) with ⟨s, hs, hle, -⟩ | hnone | hstraddles
  · obtain rfl := List.mem_singleton.mp hs
    cases hle
  · exact absurd hsplit (hnone _)
  · exact hstraddles

end Matcher

end Upkeep
