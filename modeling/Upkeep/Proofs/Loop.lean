import Mathlib.Data.Set.List
import Upkeep.Proofs.Block
import Upkeep.Proofs.Front
import Upkeep.Proofs.Passes

/-!
# The loops that the template rules replace

A loop over the comment lines is a text with sixteen open stretches
(`CommentLoop`): blanks, and trim markers that may be there or not. The
first template rule finds every such text and nothing else
(`mem_findAll_loopMatcher`), so a revision exchanges all loops of a
template for one line each and keeps what is between them
(`revise_templates`).

That the loops of a text can be listed at all rests on two facts. The
pattern is definite, so that at most one loop starts at a place. And every
residual of the pattern clashes with the pattern itself, so that no loop
starts within another one: the second tag of a loop opens like the first
one, but goes on with another word.

The second rule matches loops without trim markers. These are loops, of the
same extent, and the first rule has replaced them all.
-/

namespace Upkeep

namespace Stock

/-! ## Comment loops -/

/-- A loop over the comment lines: what is open in it, and what is asked of
the open stretches. -/
structure CommentLoop where
  forMark : Text
  beforeFor : Text
  afterFor : Text
  afterLine : Text
  afterIn : Text
  afterLines : Text
  forEndMark : Text
  beforeStar : Text
  afterStar : Text
  beforeItem : Text
  afterItem : Text
  beforeEnd : Text
  endMark : Text
  beforeEndfor : Text
  afterEndfor : Text
  endEndMark : Text
  marks : ∀ x ∈ [forMark, forEndMark, endMark, endEndMark], x = "-".toList ∨ x = []
  blank : ∀ x ∈ [beforeFor, afterFor, afterLine, afterIn, afterLines, beforeStar, afterStar,
    beforeItem, afterItem, beforeEnd, beforeEndfor, afterEndfor], ∀ c ∈ x, Text.isBlank c = true
  filled : ∀ x ∈ [afterFor, afterLine, afterIn], x ≠ []
  breaks : ∀ x ∈ [beforeStar, beforeEnd], '\n' ∈ x

namespace CommentLoop

/-- The stretches of a loop, fixed ones and open ones. -/
def stretches (l : CommentLoop) : List Text :=
  ["\x7b%".toList, l.forMark, l.beforeFor, "for".toList, l.afterFor, "line".toList, l.afterLine,
   "in".toList, l.afterIn, "commentLines".toList, l.afterLines, l.forEndMark, "%\x7d".toList,
   l.beforeStar, "*".toList, l.afterStar, "\x7b\x7b".toList, l.beforeItem, "line".toList,
   l.afterItem, "\x7d\x7d".toList, l.beforeEnd, "\x7b%".toList, l.endMark, l.beforeEndfor,
   "endfor".toList, l.afterEndfor, l.endEndMark, "%\x7d".toList]

def text (l : CommentLoop) : Text := l.stretches.flatten

theorem covers (l : CommentLoop) : List.Forall₂ Piece.Covers (commentLoop true) l.stretches := by
  have hmarks := l.marks
  have hblank := l.blank
  have hfilled := l.filled
  have hbreaks := l.breaks
  simp only [List.forall_mem_cons, List.not_mem_nil, false_implies, implies_true,
    and_true] at hmarks hblank hfilled hbreaks
  obtain ⟨m1, m2, m3, m4⟩ := hmarks
  obtain ⟨h1, h2, h3, h4, h5, h6, h7, h8, h9, h10, h11, h12⟩ := hblank
  obtain ⟨f1, f2, f3⟩ := hfilled
  obtain ⟨b1, b2⟩ := hbreaks
  exact .cons rfl <| .cons m1 <| .cons h1 <| .cons rfl <| .cons ⟨h2, f1⟩ <| .cons rfl <|
    .cons ⟨h3, f2⟩ <| .cons rfl <| .cons ⟨h4, f3⟩ <| .cons rfl <| .cons h5 <| .cons m2 <|
    .cons rfl <| .cons ⟨h6, b1⟩ <| .cons rfl <| .cons h7 <| .cons rfl <| .cons h8 <| .cons rfl <|
    .cons h9 <| .cons rfl <| .cons ⟨h10, b2⟩ <| .cons rfl <| .cons m3 <| .cons h11 <| .cons rfl <|
    .cons h12 <| .cons m4 <| .cons rfl .nil

end CommentLoop

theorem exists_commentLoop {xs : List Text} (h : List.Forall₂ Piece.Covers (commentLoop true) xs) :
    ∃ l : CommentLoop, l.stretches = xs := by
  -- the fixed stretches are equations and go away, which leaves the sixteen open ones
  obtain _ | ⟨rfl, _ | ⟨m1, _ | ⟨h1, _ | ⟨rfl, _ | ⟨⟨h2, f1⟩, _ | ⟨rfl, _ | ⟨⟨h3, f2⟩, _ | ⟨rfl,
    _ | ⟨⟨h4, f3⟩, _ | ⟨rfl, _ | ⟨h5, _ | ⟨m2, _ | ⟨rfl, _ | ⟨⟨h6, b1⟩, _ | ⟨rfl, _ | ⟨h7, _ | ⟨rfl,
    _ | ⟨h8, _ | ⟨rfl, _ | ⟨h9, _ | ⟨rfl, _ | ⟨⟨h10, b2⟩, _ | ⟨rfl, _ | ⟨m3, _ | ⟨h11, _ | ⟨rfl,
    _ | ⟨h12, _ | ⟨m4, _ | ⟨rfl, _ | _⟩⟩⟩⟩⟩⟩⟩⟩⟩⟩⟩⟩⟩⟩⟩⟩⟩⟩⟩⟩⟩⟩⟩⟩⟩⟩⟩⟩⟩ := h
  refine ⟨⟨_, _, _, _, _, _, _, _, _, _, _, _, _, _, _, _, ?_, ?_, ?_, ?_⟩, rfl⟩
  · simp only [List.forall_mem_cons, List.not_mem_nil, false_implies, implies_true, and_true]
    exact ⟨m1, m2, m3, m4⟩
  · simp only [List.forall_mem_cons, List.not_mem_nil, false_implies, implies_true, and_true]
    exact ⟨h1, h2, h3, h4, h5, h6, h7, h8, h9, h10, h11, h12⟩
  · simp only [List.forall_mem_cons, List.not_mem_nil, false_implies, implies_true, and_true]
    exact ⟨f1, f2, f3⟩
  · simp only [List.forall_mem_cons, List.not_mem_nil, false_implies, implies_true, and_true]
    exact ⟨b1, b2⟩

/-- A loop takes up the characters of the text from `s` to `e`. -/
def LoopAt (t : Text) (s e : Nat) : Prop :=
  ∃ (front : Text) (l : CommentLoop) (back : Text), t = front ++ l.text ++ back
    ∧ s = front.length ∧ e = s + l.text.length

theorem loopAt_iff {t : Text} {s e : Nat} :
    LoopAt t s e ↔ s ≤ t.length ∧ ∃ xs, Split t s (commentLoop true) xs
      ∧ e = s + xs.flatten.length := by
  constructor
  · rintro ⟨front, l, back, ht, hstart, rfl⟩
    obtain ⟨hs, hprefix⟩ := Text.stands_iff.mp ⟨front, back, ht, hstart⟩
    -- the keywords stand beside blanks and signs, whatever comes before the loop
    have hspaced : Piece.isSpaced false (commentLoop true) = true := by decide
    refine ⟨hs, l.stretches, split_of_covers l.covers hprefix ?_ hspaced, rfl⟩
    intro h
    cases h
  · rintro ⟨hs, xs, hsplit, rfl⟩
    obtain ⟨l, rfl⟩ := exists_commentLoop hsplit.covers
    obtain ⟨front, back, ht, hstart⟩ := Text.stands_iff.mpr ⟨hs, hsplit.flatten_prefix_drop⟩
    exact ⟨front, l, back, ht, hstart, rfl⟩

theorem gapFree_commentLoop (trimmed : Bool) :
    (commentLoop trimmed).all (!Piece.isGap ·) = true := by
  cases trimmed <;> decide

theorem loopAt_unique {t : Text} {s e e' : Nat} (h : LoopAt t s e) (h' : LoopAt t s e') :
    e = e' := by
  obtain ⟨hs, xs, hxs, rfl⟩ := loopAt_iff.mp h
  obtain ⟨-, ys, hys, rfl⟩ := loopAt_iff.mp h'
  have hdefinite : Piece.isDefinite (commentLoop true) = true := by decide
  have hwidths := (hxs.isParse hs).unique_of_isDefinite hdefinite (hys.isParse hs)
  rw [← parseWidth_map_length, ← parseWidth_map_length, hwidths]

theorem spells_of_loopAt {t : Text} {s e : Nat} (h : LoopAt t s e) :
    ∃ x, Spells (loopMatcher true).parts x ∧ x <+: t.drop s ∧ e = s + x.length := by
  obtain ⟨hs, xs, hsplit, rfl⟩ := loopAt_iff.mp h
  have hclear := not_straddles_of_gapFree (gapFree_commentLoop true) xs
  exact ⟨xs.flatten, Matcher.spells_of_split (compile_commentLoop "" true) hs hsplit hclear,
    hsplit.flatten_prefix_drop, rfl⟩

theorem loopAt_disjoint {t : Text} {s e s' e' : Nat} (h : LoopAt t s e) (h' : LoopAt t s' e')
    (hlt : s < s') : e ≤ s' := by
  obtain ⟨x, hx, hxt, rfl⟩ := spells_of_loopAt h
  obtain ⟨y, hy, hyt, -⟩ := spells_of_loopAt h'
  have hopen : (loopMatcher true).parts
      = Matcher.unguarded (.literal ('\x7b' :: "%".toList)) :: (loopMatcher true).parts.tail := rfl
  have hclash : (residuals (Matcher.unguarded (.literal "%".toList)
      :: (loopMatcher true).parts.tail)).all (clashes 8 · (loopMatcher true).parts) = true := by
    decide +kernel
  refine Nat.le_of_not_lt ?_
  intro hin
  obtain ⟨k, rfl⟩ := Nat.exists_eq_add_of_lt hlt
  rw [hopen] at hx
  refine hx.not_spells_behind hxt hclash hy (Nat.succ_pos k) (by omega) ?_
  rwa [List.drop_drop]

theorem loopAt_pos {t : Text} {s e : Nat} (h : LoopAt t s e) : s < e ∧ e ≤ t.length := by
  obtain ⟨front, l, back, rfl, rfl, rfl⟩ := h
  have hpos : 0 < l.text.length := Nat.zero_lt_succ _
  simp only [List.length_append]
  omega

/-! ## What the rules find -/

/-- **The spans found** by the first rule are the loops. -/
theorem mem_findAll_loopMatcher {t : Text} {s e : Nat} :
    (⟨s, e⟩ : Span) ∈ (loopMatcher true).findAll t ↔ LoopAt t s e := by
  have hcompile := compile_commentLoop "" true
  have sound : ∀ {r : Span}, r ∈ (loopMatcher true).findAll t → LoopAt t r.start r.stop := by
    intro r hmem
    obtain ⟨hs, xs, hxs, hstop⟩ := Matcher.matches_of_mem_findAll hcompile hmem
    exact loopAt_iff.mpr ⟨hs, xs, hxs.1.1, hstop⟩
  constructor
  · exact sound
  · intro h
    obtain ⟨hs, xs, hsplit, -⟩ := loopAt_iff.mp h
    obtain ⟨ys, hys⟩ := exists_isFirstSplit hsplit hs
    rcases Matcher.covered_or_not_matches hcompile hs with ⟨⟨s', e'⟩, hmem, hle, hlt⟩ | hnone
    · have hfound := sound hmem
      -- a span that starts earlier would be a loop around this one
      rcases Nat.eq_or_lt_of_le hle with rfl | hinside
      · obtain rfl := loopAt_unique hfound h
        exact hmem
      · exact absurd hlt (Nat.not_lt.mpr (loopAt_disjoint hfound h hinside))
    · exact absurd ⟨hys, not_straddles_of_gapFree (gapFree_commentLoop true) ys⟩ (hnone ys)

/-- What the second rule matches is a loop of the same extent. -/
theorem mem_findAll_of_plain {t : Text} {r : Span} (h : r ∈ (loopMatcher false).findAll t) :
    r ∈ (loopMatcher true).findAll t := by
  obtain ⟨hs, xs, hxs, hstop⟩ := Matcher.matches_of_mem_findAll (compile_commentLoop "" false) h
  have hparse := hxs.1.1.isParse hs
  rw [commentLoop_false] at hparse
  obtain ⟨ws, hws, hwidth⟩ := exists_isParse_of_filter hparse
  rw [parseWidth_map_length] at hwidth
  refine mem_findAll_loopMatcher.mpr (loopAt_iff.mpr ⟨hs, _, split_of_isParse hs hws, ?_⟩)
  rw [hstop, ← parseWidth_map_length (slices _ _)]
  have hlengths := hws.map_length_slices
  rw [Place.rest_skip, Place.rest_start] at hlengths
  rw [hlengths, hwidth]

/-! ## Texts taken apart at their loops -/

/-- Stretches of text, each followed by what stands in the place of a loop,
and a tail. -/
def weave (f : CommentLoop → Text) (pairs : List (Text × CommentLoop)) (tail : Text) : Text :=
  pairs.flatMap (fun p => p.1 ++ f p.2) ++ tail

/-- A loop as a stretch of text, with what is kept in front of it. -/
def stretch (p : Text × CommentLoop) : Text × Text := (p.1, p.2.text)

/-- Where the loops stand, if the first stretch starts at character `pos`. -/
def loopSpans (pos : Nat) (pairs : List (Text × CommentLoop)) : List Span :=
  Cut.spansFrom pos (pairs.map stretch)

theorem text_map_stretch (pairs : List (Text × CommentLoop)) (tail : Text) :
    Cut.text ⟨pairs.map stretch, tail⟩ = weave CommentLoop.text pairs tail := by
  rw [Cut.text, weave, List.flatMap_map]
  rfl

theorem exchanged_map_stretch (r : Text) (pairs : List (Text × CommentLoop)) (tail : Text) :
    Cut.exchanged r ⟨pairs.map stretch, tail⟩ = weave (fun _ => r) pairs tail := by
  rw [Cut.exchanged, weave, List.flatMap_map]
  rfl

theorem take_of_loopAt {t : Text} {s e : Nat} (h : LoopAt t s e) :
    ∃ l : CommentLoop, (t.drop s).take (e - s) = l.text := by
  obtain ⟨front, l, back, rfl, rfl, rfl⟩ := h
  refine ⟨l, ?_⟩
  rw [List.append_assoc, List.drop_left, Nat.add_sub_cancel_left, List.take_left]

/-- A text is woven from its loops, and splicing fills their places. -/
theorem exists_weave {t : Text} {spans : List Span} (replacement : Text)
    (hloops : ∀ r ∈ spans, LoopAt t r.start r.stop)
    (horder : spans.Pairwise fun r r' => r.stop ≤ r'.start) :
    ∃ pairs tail, loopSpans 0 pairs = spans ∧ t = weave CommentLoop.text pairs tail
      ∧ Rule.spliceFrom 0 replacement spans t = weave (fun _ => replacement) pairs tail := by
  have hfit : ∀ r ∈ spans, r.start ≤ r.stop ∧ r.stop ≤ t.length := fun r hr =>
    (loopAt_pos (hloops r hr)).imp_left Nat.le_of_lt
  obtain ⟨pairs, tail, hspans, htext, hslices, hsplice⟩ :=
    Cut.exists_spansFrom replacement hfit horder fun r _ => Nat.zero_le r.start
  -- what is cut out is a loop each time
  have hcut : ∀ p ∈ pairs, p ∈ Set.range stretch := by
    intro p hp
    have hmem : p.2 ∈ Cut.stretches ⟨pairs, tail⟩ := List.mem_map_of_mem hp
    rw [hslices] at hmem
    obtain ⟨r, hr, hslice⟩ := List.mem_map.mp hmem
    obtain ⟨l, hl⟩ := take_of_loopAt (hloops r hr)
    exact ⟨(p.1, l), Prod.ext rfl (hl.symm.trans hslice)⟩
  obtain ⟨pairs, rfl⟩ : pairs ∈ Set.range (List.map stretch) := by
    rw [Set.range_list_map]
    exact hcut
  rw [List.drop_zero] at htext hsplice
  exact ⟨pairs, tail, hspans, by rw [← htext, text_map_stretch], by
    rw [hsplice, exchanged_map_stretch]⟩

/-- **The template rules replace the comment loops.** Every text is
stretches with its loops between, none within another, and its revision is
the same stretches with one line in the place of each loop. All loops are
counted as hits of the first rule. What the second rule matches in a text
the first one matches with the same extent, so it is never hit. -/
theorem revise_templates (t : Text) :
    ∃ set trimmed plain, templateRules = .ok set ∧ set.rules = [trimmed, plain]
      ∧ trimmed.name = "template-comment-loop-trimmed"
      ∧ plain.name = "template-comment-loop-plain"
      ∧ (∃ r pairs tail, set.revise t = .ok r ∧ t = weave CommentLoop.text pairs tail
        ∧ r.text = weave (fun _ => " * \x7b\x7b Comment \x7d\x7d".toList) pairs tail
        ∧ (∀ s e, LoopAt t s e ↔ (⟨s, e⟩ : Span) ∈ loopSpans 0 pairs)
        ∧ r.hits = if pairs = [] then [] else [("template-comment-loop-trimmed", pairs.length)])
      ∧ (∀ s e s' e', LoopAt t s e → LoopAt t s' e' → s < s' → e ≤ s')
      ∧ (∀ s e e', LoopAt t s e → LoopAt t s e' → e = e')
      ∧ ∀ r ∈ plain.matcher.findAll t, r ∈ trimmed.matcher.findAll t := by
  obtain ⟨set, hset, hrules⟩ := exists_templateRules
  refine ⟨set, loopRule true, loopRule false, hset, hrules, rfl, rfl, ?_,
    fun s e s' e' => loopAt_disjoint, fun s e e' => loopAt_unique, fun r => mem_findAll_of_plain⟩
  obtain ⟨r, hr, -⟩ := settles_templates hrules t
  have horder := Matcher.pairwise_findFrom (loopMatcher true) none 0 0 t
  rw [← Matcher.findAll_eq_findFrom] at horder
  obtain ⟨pairs, tail, hspans, htext, hsplice⟩ := exists_weave templateReplacement
    (fun s hs => mem_findAll_loopMatcher.mp hs) horder
  have hlength : pairs.length = ((loopMatcher true).findAll t).length := by
    rw [← hspans, loopSpans, Cut.length_spansFrom, List.length_map]
  have hpass : (loopRule true).pass t
      = (weave (fun _ => templateReplacement) pairs tail, pairs.length) := by
    rw [← hsplice, hlength]
    rfl
  refine ⟨r, pairs, tail, hr, htext, ?_, ?_, ?_⟩
  · rw [(RuleSet.revise_eq_ok hr).1, hrules, ← Rule.passAll_fst, passAll_loopRules, hpass]
    rfl
  · intro s e
    rw [hspans, mem_findAll_loopMatcher]
  · rw [RuleSet.hits_of_revise hr, hrules, passAll_loopRules, hpass]
    simp only [List.length_eq_zero_iff]

/-- A trim marker may stand in any of the four places, and a word that goes
on is another word. -/
example :
    (loopMatcher true).findAll
      ("\x7b%- for line in commentLines %\x7d\n * \x7b\x7b line \x7d\x7d\n\x7b%endfor-%\x7d".toList
        ++ "\x7b%for line in commentLines%\x7d\n*\x7b\x7blines\x7d\x7d\n\x7b%endfor%\x7d".toList)
      = [⟨0, 57⟩] := by
  decide +kernel

end Stock

end Upkeep
