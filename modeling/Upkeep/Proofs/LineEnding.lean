import Upkeep.Proofs.CarriageReturn
import Upkeep.Proofs.Stock

/-!
# Line endings do not matter

A file may end its lines in a line feed or in a carriage return and a line
feed. For rules that ignore endings it makes no difference when the
carriage returns come: whether they are put in before a revision or
behind it, the outcome is the same (`RuleSet.revise_crlf`).

The argument goes up from the preferred parse. At a place that both texts
have, a matcher matches the same, stretched (`width?_crlf`). At a place
within a line break it matches nothing. So the scan of the new text finds
the old spans, stretched (`findAll_crlf`), and splicing them leaves the
same text behind.

Whether a rule ignores endings is computed from its pieces, the texts it
bans from gaps and its replacement. Both stock rule sets pass the check.
-/

namespace Upkeep

/-! ## Matches -/

namespace Matcher

/-- The pattern ignores endings, what is banned from its gaps lies within
a line, and no match starts with a line feed. -/
def ignoresEndings (m : Matcher) : Bool :=
  Piece.ignoresEndings m.pieces && Piece.shunsBreak m.pieces
    && m.parts.all fun part => part.banned.all Text.isInline

theorem crosses_crlf {parts : List GuardedPiece}
    (h : ∀ part ∈ parts, ∀ a ∈ part.banned, Text.isInline a = true) (t : Text) (ws : List Nat) :
    crosses parts (Text.crlf t) (stretchedAll t ws) = crosses parts t ws := by
  induction parts generalizing t ws with
  | nil => rfl
  | cons part parts ih =>
      cases ws with
      | nil => rfl
      | cons w ws =>
          have hhere : part.banned.any (Text.contains · (Text.crlf (t.take w)))
              = part.banned.any (Text.contains · (t.take w)) := by
            rw [Bool.eq_iff_iff, List.any_eq_true, List.any_eq_true]
            refine exists_congr fun a => and_congr_right fun ha => ?_
            rw [Text.contains_crlf (h part List.mem_cons_self a ha)]
          rw [stretchedAll, crosses, crosses, Text.take_stretched, Text.drop_stretched, hhere,
            ih fun q hq => h q (List.mem_cons_of_mem part hq)]

section

variable {m : Matcher} (h : m.ignoresEndings = true)

include h

/-- **A matcher that ignores endings** matches the same, stretched. -/
theorem width?_crlf (p : Place) :
    m.width? p.crlf = (m.width? p).map (Text.stretched p.rest) := by
  simp only [ignoresEndings, Bool.and_eq_true, List.all_eq_true] at h
  obtain ⟨⟨hpieces, -⟩, hbanned⟩ := h
  rw [width?, width?, preferred_crlf hpieces]
  cases preferred p m.pieces with
  | none => rfl
  | some ws =>
      have hcross : crosses m.parts p.crlf.rest (stretchedAll p.rest ws)
          = crosses m.parts p.rest ws := crosses_crlf hbanned p.rest ws
      simp only [Option.map_some, uncrossed?, hcross, parseWidth_stretchedAll]
      split <;> rfl

theorem width?_break (b : Option Char) (t : Text) : m.width? ⟨b, '\n' :: t⟩ = none := by
  simp only [ignoresEndings, Bool.and_eq_true] at h
  rw [width?, Piece.preferred_eq_none_of_shunsBreak h.1.2 rfl]
  rfl

end

end Matcher

/-! ## Spans -/

/-- The span once the carriage returns are there. The text starts at `pos`,
and then at `pos'`. -/
def Span.stretched (t : Text) (pos pos' : Nat) (s : Span) : Span :=
  ⟨pos' + Text.stretched t (s.start - pos), pos' + Text.stretched t (s.stop - pos)⟩

theorem Span.stretched_drop {t : Text} {pos n : Nat} (pos' : Nat) {s : Span}
    (hstart : pos + n ≤ s.start) (hstop : s.start ≤ s.stop) :
    s.stretched t pos pos' = s.stretched (t.drop n) (pos + n) (pos' + Text.stretched t n) := by
  have hsplit : ∀ {x : Nat}, pos + n ≤ x →
      Text.stretched t (x - pos) = Text.stretched t n + Text.stretched (t.drop n) (x - (pos + n)) := by
    intro x hx
    rw [← Text.stretched_add]
    congr 1
    omega
  simp only [Span.stretched, hsplit hstart, hsplit (Nat.le_trans hstart hstop), Nat.add_assoc]

namespace Matcher

/-- **The scan of the new text** finds the old spans, stretched. The
induction follows the old scan. It takes one step more at a line feed, and
finds nothing there. -/
theorem findFrom_crlf {m : Matcher} (h : m.ignoresEndings = true) (b : Option Char)
    (pos pos' covered : Nat) (t : Text) :
    m.findFrom b pos' (Text.stretched t covered) (Text.crlf t)
      = (m.findFrom b pos covered t).map (Span.stretched t pos pos') := by
  induction t generalizing b pos pos' covered with
  | nil => rfl
  | cons c t ih =>
      -- the spans found behind `c` are told in terms of `t`
      have htail : ∀ (n : Nat), m.findFrom (some c) (pos' + Text.stretched (c :: t) 1)
            (Text.stretched t n) (Text.crlf t)
          = (m.findFrom (some c) (pos + 1) n t).map (Span.stretched (c :: t) pos pos') := by
        intro n
        rw [ih (some c) (pos + 1) (pos' + Text.stretched (c :: t) 1) n]
        refine List.map_congr_left fun s hs => ?_
        obtain ⟨hstart, hstop⟩ := le_start_of_mem_findFrom hs
        exact (Span.stretched_drop pos' (Nat.le_trans (Nat.le_add_right _ n) hstart) hstop).symm
      by_cases hc : c = '\n'
      · subst hc
        cases covered with
        | succ k => exact htail k
        | zero =>
            have hnone : m.width? ⟨b, '\r' :: '\n' :: Text.crlf t⟩ = none := by
              have hw := width?_crlf h ⟨b, '\n' :: t⟩
              rw [width?_break h] at hw
              exact hw
            simp only [Text.stretched_zero, Text.crlf_break, findFrom, hnone, width?_break h]
            have hrest := htail 0
            rw [Text.stretched_zero] at hrest
            exact hrest
      · have hone : Text.stretched (c :: t) 1 = 1 := by
          rw [Text.stretched_cons hc, Text.stretched_zero]
        rw [hone] at htail
        rw [Text.crlf_cons hc]
        cases covered with
        | succ k =>
            rw [Text.stretched_cons hc]
            exact htail k
        | zero =>
            have hw := width?_crlf h ⟨b, c :: t⟩
            simp only [Place.crlf, Text.crlf_cons hc] at hw
            simp only [Text.stretched_zero, findFrom, hw]
            cases m.width? ⟨b, c :: t⟩ with
            | none =>
                have hrest := htail 0
                rw [Text.stretched_zero] at hrest
                exact hrest
            | some w =>
                have hcovered : Text.stretched (c :: t) w - 1 = Text.stretched t (w - 1) := by
                  cases w with
                  | zero => simp
                  | succ k =>
                      rw [Text.stretched_cons hc]
                      rfl
                simp only [Option.map_some, hcovered, List.map_cons, htail]
                simp [Span.stretched]

theorem findAll_crlf {m : Matcher} (h : m.ignoresEndings = true) (t : Text) :
    m.findAll (Text.crlf t) = (m.findAll t).map (Span.stretched t 0 0) := by
  have hscan := findFrom_crlf h none 0 0 0 t
  rw [Text.stretched_zero] at hscan
  rw [findAll_eq_findFrom, findAll_eq_findFrom, hscan]

theorem isMatch_crlf {m : Matcher} (h : m.ignoresEndings = true) (t : Text) :
    m.isMatch (Text.crlf t) = m.isMatch t := by
  rw [isMatch, isMatch, findAll_crlf h, List.isEmpty_map]

end Matcher

/-! ## Revisions -/

namespace Rule

theorem spliceFrom_crlf {r : Text} (hr : Text.crlf r = r) {spans : List Span} {pos : Nat}
    (hmem : ∀ s ∈ spans, pos ≤ s.start ∧ s.start ≤ s.stop)
    (hord : spans.Pairwise fun s s' => s.stop ≤ s'.start) (pos' : Nat) (t : Text) :
    spliceFrom pos' r (spans.map (Span.stretched t pos pos')) (Text.crlf t)
      = Text.crlf (spliceFrom pos r spans t) := by
  induction spans generalizing pos pos' t with
  | nil => rfl
  | cons s spans ih =>
      rw [List.pairwise_cons] at hord
      obtain ⟨hstart, hstop⟩ := hmem s List.mem_cons_self
      have hrest : ∀ s' ∈ spans, s.stop ≤ s'.start ∧ s'.start ≤ s'.stop :=
        fun s' hs' => ⟨hord.1 s' hs', (hmem s' (List.mem_cons_of_mem s hs')).2⟩
      have hpos : pos + (s.stop - pos) = s.stop := by omega
      -- the other spans are told in terms of the text behind this one
      have hspans : spans.map (Span.stretched t pos pos')
          = spans.map (Span.stretched (t.drop (s.stop - pos)) s.stop
              (pos' + Text.stretched t (s.stop - pos))) := by
        refine List.map_congr_left fun s' hs' => ?_
        have hdrop := @Span.stretched_drop t pos (s.stop - pos) pos' s'
        rw [hpos] at hdrop
        exact hdrop (hrest s' hs').1 (hrest s' hs').2
      simp only [List.map_cons, spliceFrom, hspans]
      simp only [Span.stretched, Nat.add_sub_cancel_left, Text.take_stretched,
        Text.drop_stretched, ih hrest hord.2, Text.crlf_append, hr]

/-- The matcher ignores endings, and the replacement has no line feed. -/
def ignoresEndings (r : Rule) : Bool := r.matcher.ignoresEndings && Text.isInline r.replacement

theorem pass_crlf {r : Rule} (h : r.ignoresEndings = true) (t : Text) :
    r.pass (Text.crlf t) = (Text.crlf (r.pass t).1, (r.pass t).2) := by
  obtain ⟨hmatcher, hrep⟩ := Bool.and_eq_true _ _ |>.mp h
  have hr : Text.crlf r.replacement = r.replacement :=
    Text.crlf_eq_self (Text.isInline_iff.mp hrep).1
  have hmem : ∀ s ∈ r.matcher.findAll t, 0 ≤ s.start ∧ s.start ≤ s.stop := by
    intro s hs
    rw [Matcher.findAll_eq_findFrom] at hs
    exact ⟨Nat.zero_le _, (Matcher.le_start_of_mem_findFrom hs).2⟩
  have hord : (r.matcher.findAll t).Pairwise fun s s' => s.stop ≤ s'.start := by
    rw [Matcher.findAll_eq_findFrom]
    exact Matcher.pairwise_findFrom _ _ _ _ _
  simp only [pass, Matcher.findAll_crlf hmatcher, spliceFrom_crlf hr hmem hord, List.length_map]

theorem passAll_crlf {rules : List Rule} (h : ∀ r ∈ rules, r.ignoresEndings = true) (t : Text) :
    passAll rules (Text.crlf t) = (Text.crlf (passAll rules t).1, (passAll rules t).2) := by
  induction rules generalizing t with
  | nil => rfl
  | cons r rules ih =>
      have hrest := ih fun q hq => h q (List.mem_cons_of_mem r hq)
      simp only [passAll, pass_crlf (h r List.mem_cons_self), hrest]

theorem firstMatching?_crlf {rules : List Rule} (h : ∀ r ∈ rules, r.ignoresEndings = true)
    (t : Text) : firstMatching? rules (Text.crlf t) = firstMatching? rules t := by
  induction rules with
  | nil => rfl
  | cons r rules ih =>
      have hrest := ih fun q hq => h q (List.mem_cons_of_mem r hq)
      have hmatcher := (Bool.and_eq_true _ _ |>.mp (h r List.mem_cons_self)).1
      rw [firstMatching?] at hrest ⊢
      rw [List.find?_cons, Matcher.isMatch_crlf hmatcher, hrest]
      rfl

end Rule

/-- The revision with carriage returns in its text. -/
def Revision.crlf (r : Revision) : Revision := { r with text := Text.crlf r.text }

/-- **Rules that ignore endings** revise the new text as they revise the
old one. -/
theorem RuleSet.revise_crlf {set : RuleSet} (h : ∀ r ∈ set.rules, r.ignoresEndings = true)
    (t : Text) : set.revise (Text.crlf t) = (set.revise t).map Revision.crlf := by
  have hsame : Text.crlf (Rule.passAll set.rules t).1 = Text.crlf t
      ↔ (Rule.passAll set.rules t).1 = t := ⟨Text.crlf_injective, congrArg Text.crlf⟩
  simp only [revise, Rule.passAll_crlf h, hsame, Rule.firstMatching?_crlf h]
  split
  · rfl
  · split <;> rfl

/-- Rules that settle every text and ignore endings revise a text and the
same text with carriage returns. -/
theorem RuleSet.Settles.exists_revise_crlf {set : RuleSet} (hset : set.Settles)
    (h : ∀ r ∈ set.rules, r.ignoresEndings = true) (t : Text) :
    ∃ r, set.revise t = .ok r
      ∧ set.revise (Text.crlf t) = .ok ⟨Text.crlf r.text, r.hits, r.changed⟩ := by
  obtain ⟨r, hr, -⟩ := hset t
  refine ⟨r, hr, ?_⟩
  rw [RuleSet.revise_crlf h, hr]
  rfl

namespace Stock

theorem ignoresEndings_generatorRule : generatorRule.ignoresEndings = true := by
  decide +kernel

theorem ignoresEndings_loopRule (trimmed : Bool) : (loopRule trimmed).ignoresEndings = true := by
  cases trimmed <;> decide +kernel

/-- **The stock rule sets ignore line endings.** Every text is revised, and
with carriage returns before its line feeds it is revised to the same text
with carriage returns, with the same hits and the same mark of a change. -/
theorem stock_revise_crlf (t : Text) :
    (∃ set r, generatorRules = .ok set ∧ set.revise t = .ok r
        ∧ set.revise (Text.crlf t) = .ok ⟨Text.crlf r.text, r.hits, r.changed⟩)
      ∧ ∃ set r, templateRules = .ok set ∧ set.revise t = .ok r
        ∧ set.revise (Text.crlf t) = .ok ⟨Text.crlf r.text, r.hits, r.changed⟩ := by
  constructor
  · obtain ⟨set, hset, hrules⟩ := exists_generatorRules
    have hignore : ∀ q ∈ set.rules, q.ignoresEndings = true := by
      simp [hrules, ignoresEndings_generatorRule]
    obtain ⟨r, hr, hcrlf⟩ := (settles_generators hrules).exists_revise_crlf hignore t
    exact ⟨set, r, hset, hr, hcrlf⟩
  · obtain ⟨set, hset, hrules⟩ := exists_templateRules
    have hignore : ∀ q ∈ set.rules, q.ignoresEndings = true := by
      simp [hrules, ignoresEndings_loopRule]
    obtain ⟨r, hr, hcrlf⟩ := (settles_templates hrules).exists_revise_crlf hignore t
    exact ⟨set, r, hset, hr, hcrlf⟩

end Stock

end Upkeep
