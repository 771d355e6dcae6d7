import Mathlib.Data.Nat.Find
import Mathlib.Order.Bounds.Basic
import Upkeep.Proofs.Scan
import Upkeep.Proofs.Spacing
import Upkeep.Proofs.Stock

/-!
# The blocks that the generator rule matches

A block in a generator source opens with a marker, declares
`commentLines`, goes on for a number of lines and ends with a
`with(context)` block. `LegacyBlock` writes that down as a text with ten
open stretches. The rule for generators finds a span at every place where
such a text stands, and none elsewhere; where several blocks start at the
same place, it finds the shortest (`Stock.findAll_generator`).

Three things have to be seen. The keywords of the pattern are set apart by
the blanks around them, so a block is recognised by its text alone. The
pattern has one gap, and its preferred parse is the one with the shortest
gap: no parse ends earlier, since the piece behind the gap does not occur
within the rest of the pattern (`parseWidth_le_of_oneGap`). And a block
holds no marker but the one it starts with, so the scan is never inside a
match where another block starts (`not_marker_within`).
-/

namespace Upkeep

theorem Matcher.isParse_of_split {rule : String} {pieces : List Piece} {m : Matcher}
    (hm : compile rule pieces = .ok m) {t : Text} {n : Nat} {xs : List Text} (hn : n ≤ t.length)
    (hxs : Split t n pieces xs) :
    IsParse ((Place.start t).skip n) m.pieces (xs.map List.length) := by
  rw [(pieces_of_compile hm).1]
  exact hxs.isParse hn

/-- A split that straddles no anchor is spelled by the parts. -/
theorem Matcher.spells_of_split {rule : String} {pieces : List Piece} {m : Matcher}
    (hm : compile rule pieces = .ok m) {t : Text} {n : Nat} {xs : List Text} (hn : n ≤ t.length)
    (hxs : Split t n pieces xs) (hclear : ¬ Straddles pieces xs) :
    Spells m.parts xs.flatten := by
  have hspell := spells_of_isParse (isParse_of_split hm hn hxs)
    (crosses_eq_false_of_split hm hxs hclear)
  rw [parseWidth_map_length, Place.rest_skip, Place.rest_start,
    ← List.prefix_iff_eq_take.mp hxs.flatten_prefix_drop] at hspell
  exact hspell

/-! ## Patterns with one gap -/

theorem parseWidth_append (us vs : List Nat) :
    parseWidth (us ++ vs) = parseWidth us + parseWidth vs := by
  induction us with
  | nil => simp [parseWidth]
  | cons u us ih => rw [List.cons_append, parseWidth, parseWidth, ih, Nat.add_assoc]

/-- **The preferred parse ends first.** With rigid pieces on both sides of
the gap, a parse is told by the width of its gap. A later gap ends behind
the whole preferred parse, unless the text that opens the back stood
within it. -/
theorem parseWidth_le_of_oneGap {p : Place} {front back : List Piece} {hole : Piece} {c : Char}
    {u : Text} {ws vs : List Nat} (hfront : Piece.isRigid front = true)
    (hback : Piece.isRigid (.literal (c :: u) :: back) = true) (hgap : hole.isGap = true)
    (hclosed : (residuals ((.literal u :: back).map Matcher.unguarded)).all
      (!reads · (c :: u)) = true)
    (hw : preferred p (front ++ hole :: .literal (c :: u) :: back) = some ws)
    (hv : IsParse p (front ++ hole :: .literal (c :: u) :: back) vs) :
    parseWidth ws ≤ parseWidth vs := by
  obtain ⟨us, ws, rfl, hus, hws⟩ := preferred_append hw
  obtain ⟨us', vs, rfl, hus', hvs⟩ := hv.exists_of_append
  obtain rfl := hus'.unique_of_isRigid hfront hus
  rw [parseWidth_append, parseWidth_append]
  cases hvs with
  | @cons _ _ _ g' vs hg' htail' =>
      cases isParse_of_preferred hws with
      | @cons _ _ _ g ws hg htail =>
          have hle : g ≤ g' := Matcher.gap_le_of_preferred hgap hws hg' (isSome_preferred htail')
          rw [parseWidth, parseWidth]
          rcases Nat.eq_or_lt_of_le hle with rfl | hlt
          · rw [htail.unique_of_isRigid hback htail']
          · refine Nat.le_of_not_lt fun hshort => ?_
            -- the later gap ends within what the preferred parse covers behind its own
            have hspell : Spells ((Piece.literal (c :: u) :: back).map Matcher.unguarded) _ :=
              spells_of_isParse (by rw [Matcher.map_piece_unguarded]; exact htail)
                (Matcher.crosses_unguarded _ _ _)
            have hwidth := htail.parseWidth_le
            have hnot := hspell.not_prefix_behind (List.take_prefix _ _) hclosed (k := g' - g)
              (by omega) (by rw [List.length_take]; omega)
            cases htail' with
            | @cons _ _ _ w _ hopen _ =>
                obtain ⟨-, hcov, -⟩ := Piece.mem_widths.mp hopen
                refine hnot ?_
                rw [Place.rest_skip, List.drop_drop, Nat.add_sub_cancel' hle, ← Place.rest_skip,
                  ← show _ = c :: u from hcov]
                exact List.take_prefix _ _

/-- With one gap behind pieces that are parsed once, a place with a split
that straddles nothing has a match. -/
theorem exists_matches_of_oneGap {rule : String} {m : Matcher} {front back : List Piece}
    {hole : GuardedPiece} {t : Text} {n : Nat} {xs : List Text}
    (hparts : m.parts = front.map Matcher.unguarded ++ hole :: back.map Matcher.unguarded)
    (hm : Matcher.compile rule (front ++ hole.piece :: back) = .ok m)
    (hfront : Piece.ParsedOnce front) (hgap : hole.piece.isGap = true) (hn : n ≤ t.length)
    (hxs : Split t n (front ++ hole.piece :: back) xs)
    (hclear : ¬ Straddles (front ++ hole.piece :: back) xs) :
    ∃ ys, Matches t n (front ++ hole.piece :: back) ys := by
  have hparse := Matcher.isParse_of_split hm hn hxs
  have hfree := Matcher.crosses_eq_false_of_split hm hxs hclear
  have hsome := Matcher.isSome_width?_of_oneGap hparts hfront hgap hparse hfree
  obtain ⟨w, hw⟩ := Option.isSome_iff_exists.mp hsome
  obtain ⟨ys, hys, -⟩ := (Matcher.width?_eq_some_iff_matches hm hn).mp hw
  exact ⟨ys, hys⟩

namespace Stock

/-! ## Legacy blocks -/

/-- A block in a generator source: what is open in it, and what is asked
of the open stretches. -/
structure LegacyBlock where
  afterMarker : Text
  afterVal : Text
  beforeEquals : Text
  afterEquals : Text
  body : Text
  beforeBrace : Text
  afterBrace : Text
  afterTag : Text
  afterKey : Text
  beforeClose : Text
  blank : ∀ x ∈ [afterMarker, afterVal, beforeEquals, afterEquals, beforeBrace, afterBrace,
    afterTag, afterKey, beforeClose], ∀ c ∈ x, Text.isBlank c = true
  afterVal_ne_nil : afterVal ≠ []
  breaks : ∀ x ∈ [afterMarker, afterBrace, beforeClose], '\n' ∈ x
  body_lines : body.count '\n' ≤ 24
  body_marker : ¬ "// 准备注释行".toList <:+: body
  body_comment : ¬ "SqlSchemaUtils.getComment(table)".toList <:+: body

namespace LegacyBlock

/-- The stretches of a block, fixed ones and open ones. -/
def stretches (b : LegacyBlock) : List Text :=
  ["// 准备注释行".toList, b.afterMarker, "val".toList, b.afterVal, "commentLines".toList,
   b.beforeEquals, "=".toList, b.afterEquals, "SqlSchemaUtils.getComment(table)".toList, b.body,
   "with(context)".toList, b.beforeBrace, "\x7b".toList, b.afterBrace,
   "resultContext.putContext(tag,".toList, b.afterTag, "\"commentLines\",".toList, b.afterKey,
   "commentLines)".toList, b.beforeClose, "\x7d".toList]

def text (b : LegacyBlock) : Text := b.stretches.flatten

end LegacyBlock

/-- A block takes up the characters of the text from `s` to `e`. -/
def BlockAt (t : Text) (s e : Nat) : Prop :=
  ∃ (front : Text) (b : LegacyBlock) (back : Text), t = front ++ b.text ++ back
    ∧ s = front.length ∧ e = s + b.text.length

theorem eq_nine_of_isGap {i : Nat} {piece : Piece} (hi : generatorBlock[i]? = some piece)
    (h : piece.isGap = true) : i = 9 := by
  have hlt : i < generatorBlock.length := (List.getElem?_eq_some_iff.mp hi).1
  have hgaps : ∀ i < generatorBlock.length, (generatorBlock[i]?).any Piece.isGap = true → i = 9 := by
    decide
  refine hgaps i hlt ?_
  rw [hi]
  exact h

theorem straddles_generatorBlock {xs : List Text} :
    Straddles generatorBlock xs ↔ ∃ x, xs[9]? = some x
      ∧ (generatorMarker <:+: x ∨ "SqlSchemaUtils.getComment(table)".toList <:+: x) := by
  have hfirst : (Piece.anchors (generatorBlock.take 9)).head? = some generatorMarker := by decide
  have hlast : (Piece.anchors (generatorBlock.take 9)).getLast?
      = some "SqlSchemaUtils.getComment(table)".toList := by decide
  constructor
  · rintro ⟨i, piece, x, a, hi, hx, hgap, hbans, ha⟩
    obtain rfl := eq_nine_of_isGap hi hgap
    refine ⟨x, hx, ?_⟩
    rcases hbans with hbans | hbans
    · rw [hfirst, Option.some.injEq] at hbans
      exact .inl (hbans ▸ ha)
    · rw [hlast, Option.some.injEq] at hbans
      exact .inr (hbans ▸ ha)
  · rintro ⟨x, hx, ha | ha⟩
    · exact ⟨9, _, x, _, rfl, hx, rfl, .inl hfirst, ha⟩
    · exact ⟨9, _, x, _, rfl, hx, rfl, .inr hlast, ha⟩

theorem LegacyBlock.covers (b : LegacyBlock) :
    List.Forall₂ Piece.Covers generatorBlock b.stretches := by
  have hblank := b.blank
  have hbreaks := b.breaks
  simp only [List.forall_mem_cons, List.not_mem_nil, false_implies, implies_true,
    and_true] at hblank hbreaks
  obtain ⟨h1, h2, h3, h4, h5, h6, h7, h8, h9⟩ := hblank
  obtain ⟨b1, b2, b3⟩ := hbreaks
  exact .cons rfl <| .cons ⟨h1, b1⟩ <| .cons rfl <| .cons ⟨h2, b.afterVal_ne_nil⟩ <| .cons rfl <|
    .cons h3 <| .cons rfl <| .cons h4 <| .cons rfl <| .cons b.body_lines <| .cons rfl <|
    .cons h5 <| .cons rfl <| .cons ⟨h6, b2⟩ <| .cons rfl <| .cons h7 <| .cons rfl <|
    .cons h8 <| .cons rfl <| .cons ⟨h9, b3⟩ <| .cons rfl .nil

theorem LegacyBlock.not_straddles (b : LegacyBlock) : ¬ Straddles generatorBlock b.stretches := by
  rw [straddles_generatorBlock]
  rintro ⟨x, hx, h⟩
  obtain rfl : b.body = x := Option.some.inj hx
  rcases h with h | h
  · exact b.body_marker h
  · exact b.body_comment h

theorem exists_legacyBlock {xs : List Text} (hcov : List.Forall₂ Piece.Covers generatorBlock xs)
    (hclear : ¬ Straddles generatorBlock xs) : ∃ b : LegacyBlock, b.stretches = xs := by
  -- the fixed stretches are equations and go away, which leaves the ten open ones
  simp only [generatorBlock, List.forall₂_cons_left_iff, List.forall₂_nil_left_iff, Piece.Covers,
    exists_eq_left, exists_and_left] at hcov
  obtain ⟨_, ⟨x1, ⟨h1, b1⟩, _, ⟨_, ⟨x2, ⟨h2, b2⟩, _, ⟨_, ⟨x3, h3, _, ⟨_, ⟨x4, h4, _, ⟨_,
    ⟨y, hy, _, ⟨_, ⟨x5, h5, _, ⟨_, ⟨x6, ⟨h6, b6⟩, _, ⟨_, ⟨x7, h7, _, ⟨_, ⟨x8, h8, _, ⟨_,
    ⟨x9, ⟨h9, b9⟩, _, rfl, rfl⟩, rfl⟩, rfl⟩, rfl⟩, rfl⟩, rfl⟩, rfl⟩, rfl⟩, rfl⟩, rfl⟩, rfl⟩,
    rfl⟩, rfl⟩, rfl⟩, rfl⟩, rfl⟩, rfl⟩, rfl⟩, rfl⟩, rfl⟩ := hcov
  rw [straddles_generatorBlock] at hclear
  refine ⟨⟨x1, x2, x3, x4, y, x5, x6, x7, x8, x9, ?_, b2, ?_, hy,
    fun hin => hclear ⟨y, rfl, .inl hin⟩, fun hin => hclear ⟨y, rfl, .inr hin⟩⟩, rfl⟩
  · simp only [List.forall_mem_cons, List.not_mem_nil, false_implies, implies_true, and_true]
    exact ⟨h1, h2, h3, h4, h5, h6, h7, h8, h9⟩
  · simp only [List.forall_mem_cons, List.not_mem_nil, false_implies, implies_true, and_true]
    exact ⟨b1, b6, b9⟩

theorem blockAt_iff {t : Text} {s e : Nat} :
    BlockAt t s e ↔ s ≤ t.length ∧ ∃ xs, Split t s generatorBlock xs
      ∧ ¬ Straddles generatorBlock xs ∧ e = s + xs.flatten.length := by
  constructor
  · rintro ⟨front, b, back, ht, hstart, rfl⟩
    obtain ⟨hs, hprefix⟩ := Text.stands_iff.mp ⟨front, back, ht, hstart⟩
    -- both keywords stand between blanks, whatever comes before the block
    have hspaced : Piece.isSpaced false generatorBlock = true := by decide
    refine ⟨hs, b.stretches, split_of_covers b.covers hprefix ?_ hspaced, b.not_straddles, rfl⟩
    intro h
    cases h
  · rintro ⟨hs, xs, hsplit, hclear, rfl⟩
    obtain ⟨b, rfl⟩ := exists_legacyBlock hsplit.covers hclear
    obtain ⟨front, back, ht, hstart⟩ := Text.stands_iff.mpr ⟨hs, hsplit.flatten_prefix_drop⟩
    exact ⟨front, b, back, ht, hstart, rfl⟩

/-- A block holds no marker but the one it starts with. -/
theorem not_marker_within {t : Text} {s e k : Nat} (h : BlockAt t s e) (hs : s < k) (he : k < e) :
    ¬ generatorMarker <+: t.drop k := by
  obtain ⟨hle, xs, hsplit, hclear, rfl⟩ := blockAt_iff.mp h
  have hspell := Matcher.spells_of_split (compile_generatorBlock "") hle hsplit hclear
  have hopen : generatorMatcher.parts
      = Matcher.unguarded (.literal ('/' :: generatorMarker.tail)) :: generatorMatcher.parts.tail :=
    rfl
  have hclosed : (residuals (Matcher.unguarded (.literal generatorMarker.tail)
      :: generatorMatcher.parts.tail)).all (!reads · generatorMarker) = true := by
    decide +kernel
  obtain ⟨j, rfl⟩ := Nat.exists_eq_add_of_lt hs
  rw [hopen] at hspell
  have hnot := hspell.not_prefix_behind hsplit.flatten_prefix_drop hclosed (Nat.succ_pos j)
    (by omega)
  rwa [List.drop_drop] at hnot

theorem marker_of_blockAt {t : Text} {s e : Nat} (h : BlockAt t s e) :
    s < e ∧ generatorMarker <+: t.drop s := by
  obtain ⟨front, b, back, rfl, rfl, rfl⟩ := h
  refine ⟨?_, ?_⟩
  · have hpos : 0 < b.text.length := Nat.zero_lt_succ _
    omega
  · rw [List.append_assoc, List.drop_left, LegacyBlock.text, LegacyBlock.stretches,
      List.flatten_cons, List.append_assoc]
    exact List.prefix_append _ _

theorem blockAt_disjoint {t : Text} {s e s' e' : Nat} (h : BlockAt t s e) (h' : BlockAt t s' e')
    (hlt : s < s') : e ≤ s' := by
  refine Nat.le_of_not_lt ?_
  intro hin
  exact not_marker_within h hlt hin (marker_of_blockAt h').2

/-! ## The rule for generators -/

/-- A match ends where the shortest block that starts with it ends. -/
theorem isLeast_of_matches {t : Text} {s : Nat} {xs : List Text} (hs : s ≤ t.length)
    (h : Matches t s generatorBlock xs) :
    IsLeast {e | BlockAt t s e} (s + xs.flatten.length) := by
  refine ⟨blockAt_iff.mpr ⟨hs, xs, h.1.1, h.2, rfl⟩, ?_⟩
  intro e he
  obtain ⟨-, ys, hys, -, rfl⟩ := blockAt_iff.mp he
  have hfirst := preferred_eq_some_iff.mpr (h.1.isFirstParse hs)
  have hfront : Piece.isRigid (generatorBlock.take 9) = true := by decide
  have hback : Piece.isRigid
      (.literal ('w' :: "ith(context)".toList) :: generatorBlock.drop 11) = true := by
    decide
  have hgap : (Piece.gapWithin generatorBlockLines).isGap = true := rfl
  -- what stands behind the gap does not occur again in the rest of the block
  have hclosed : (residuals ((.literal "ith(context)".toList :: generatorBlock.drop 11).map
      Matcher.unguarded)).all (!reads · ('w' :: "ith(context)".toList)) = true := by
    decide +kernel
  have hle := parseWidth_le_of_oneGap hfront hback hgap hclosed hfirst (hys.isParse hs)
  rw [parseWidth_map_length, parseWidth_map_length] at hle
  omega

/-- **The spans found** are the shortest blocks. A place where a block
starts is within a span, and since it has a marker, the span starts
there. -/
theorem mem_findAll_generatorMatcher {t : Text} {s e : Nat} :
    (⟨s, e⟩ : Span) ∈ generatorMatcher.findAll t ↔ IsLeast {e | BlockAt t s e} e := by
  have hcompile := compile_generatorBlock ""
  have sound : ∀ {s : Span}, s ∈ generatorMatcher.findAll t →
      IsLeast {e | BlockAt t s.start e} s.stop := by
    intro s hmem
    obtain ⟨hs, xs, hxs, hstop⟩ := Matcher.matches_of_mem_findAll hcompile hmem
    rw [hstop]
    exact isLeast_of_matches hs hxs
  constructor
  · exact sound
  · intro hleast
    obtain ⟨hs, xs, hsplit, hclear, -⟩ := blockAt_iff.mp hleast.1
    obtain ⟨ys, hys⟩ := exists_matches_of_oneGap parts_generatorMatcher hcompile
      (Piece.parsedOnce_of_isRigid (by decide)) rfl hs hsplit hclear
    rcases Matcher.covered_or_not_matches hcompile hs with ⟨⟨s', e'⟩, hmem, hle, hlt⟩ | hnone
    · have hfound := sound hmem
      -- a span that starts earlier would hold the marker at `s`
      rcases Nat.eq_or_lt_of_le hle with rfl | hinside
      · obtain rfl := hfound.unique hleast
        exact hmem
      · exact absurd (marker_of_blockAt hleast.1).2 (not_marker_within hfound.1 hinside hlt)
    · exact absurd hys (hnone ys)

/-- **The rule for generators matches the legacy blocks.** At every place
of a text where blocks start it finds one span, the shortest of them, and
it finds nothing else. The spans come in the order of the text, no two
blocks that start at different places overlap, and none holds a second
marker. -/
theorem findAll_generator (t : Text) :
    ∃ set rule, generatorRules = .ok set ∧ set.rules = [rule]
      ∧ rule.name = "generator-comment-lines"
      ∧ (rule.matcher.findAll t).Pairwise (fun r r' => r.start < r'.start ∧ r.stop ≤ r'.start)
      ∧ (∀ s e, (⟨s, e⟩ : Span) ∈ rule.matcher.findAll t ↔ IsLeast {e | BlockAt t s e} e)
      ∧ (∀ s, (∃ e, BlockAt t s e) → ∃ e, (⟨s, e⟩ : Span) ∈ rule.matcher.findAll t)
      ∧ (∀ s e s' e', BlockAt t s e → BlockAt t s' e' → s < s' → e ≤ s')
      ∧ ∀ s e k, BlockAt t s e → s < k → k < e → ¬ "// 准备注释行".toList <+: t.drop k := by
  obtain ⟨set, hset, hrules⟩ := exists_generatorRules
  refine ⟨set, generatorRule, hset, hrules, rfl, ?_, fun s e => mem_findAll_generatorMatcher, ?_,
    fun s e s' e' => blockAt_disjoint, fun s e k => not_marker_within⟩
  · have horder := Matcher.pairwise_findFrom generatorMatcher none 0 0 t
    rw [← Matcher.findAll_eq_findFrom] at horder
    refine horder.imp_of_mem ?_
    rintro ⟨s, e⟩ ⟨s', e'⟩ hmem - hle
    have hlt := (marker_of_blockAt (mem_findAll_generatorMatcher.mp hmem).1).1
    exact ⟨Nat.lt_of_lt_of_le hlt hle, hle⟩
  · classical
    intro s h
    exact ⟨Nat.find h, mem_findAll_generatorMatcher.mpr
      ⟨Nat.find_spec h, fun e he => Nat.find_min' h he⟩⟩

/-- A marker without a block is not joined to the block behind it. -/
example :
    generatorMatcher.findAll
      ("// 准备注释行\n// 准备注释行\nval commentLines = SqlSchemaUtils.getComment(table)\n".toList
        ++ "with(context)\x7b\nresultContext.putContext(tag,\"commentLines\",commentLines)\n\x7d".toList)
      = [⟨9, 144⟩] := by
  decide +kernel

end Stock

end Upkeep
