import Upkeep.Proofs.Revision
import Upkeep.Proofs.Splice
import Upkeep.Rule.Stock

/-!
# The stock rule sets settle every text

For an arbitrary rule set a revision may be refused. For the two stock
sets it never is, and nothing is left to match in its outcome, whether it
changed or not (`stock_settles`).

Both patterns start and end with literals, so their matches are local. In
the generator block the pieces before the gap are rigid. What remains is
to see that no match touches a replacement, and `Matcher.repels` computes
that. The replacement in a generator source contains the anchor that is
banned from the gap, so a block cannot be closed across a replacement,
however few lines are left in between.

The second template rule has nothing to do. Its pattern is the first one
without the optional trim markers, so it matches only where the first one
does.
-/

namespace Upkeep

namespace RuleSet

/-- Every text is revised, and no rule matches the outcome. -/
def Settles (set : RuleSet) : Prop :=
  ∀ t, ∃ r, set.revise t = .ok r ∧ ∀ q ∈ set.rules, q.matcher.isMatch r.text = false

theorem settles_of_passed {set : RuleSet}
    (h : ∀ t, ∀ q ∈ set.rules, q.matcher.isMatch (Rule.passed set.rules t) = false) :
    set.Settles := by
  intro t
  cases hr : set.revise t with
  | ok r => exact ⟨r, rfl, (revise_eq_ok hr).1 ▸ h t⟩
  | error e =>
      obtain ⟨-, front, q, back, hsplit, -, hmatch, -⟩ := revise_eq_error_iff.mp hr
      rw [h t q (hsplit ▸ by simp)] at hmatch
      cases hmatch

/-- Rules that match none of their replacements make a rule set. -/
theorem exists_ofRules {rules : List Rule}
    (h : ∀ r ∈ rules, ∀ q ∈ rules, q.matcher.isMatch r.replacement = false) :
    ∃ set, ofRules rules = .ok set ∧ set.rules = rules := by
  have hnone : rules.findSome? (reapplied? rules) = none := by
    rw [List.findSome?_eq_none_iff]
    intro r hr
    rw [reapplied?, Rule.firstMatching?_eq_none_iff.mpr (h r hr)]
    rfl
  rw [ofRules]
  split
  · rename_i e he
    rw [hnone] at he
    cases he
  · exact ⟨_, rfl, rfl⟩

end RuleSet

/-! ## Compiling -/

namespace Matcher

theorem compile_eq_ok {pieces : List Piece} {lead : Text} (rule : String)
    (hlead : pieces.findSome? Piece.anchor? = some lead)
    (hsmall : pieces.any isTooLarge = false) :
    compile rule pieces = .ok ⟨lead, guarded lead none pieces⟩ := by
  simp only [compile, hlead, hsmall]
  rfl

/-- Pieces that are no gaps have no guards. -/
theorem exists_guarded_append {front : List Piece} (h : front.all (!Piece.isGap ·) = true)
    (lead : Text) (last : Option Text) (back : List Piece) :
    ∃ last', guarded lead last (front ++ back)
      = front.map unguarded ++ guarded lead last' back := by
  induction front generalizing last with
  | nil => exact ⟨last, rfl⟩
  | cons piece front ih =>
      rw [List.all_cons, Bool.and_eq_true] at h
      have hgap : piece.isGap = false := by simpa using h.1
      obtain ⟨last', hlast⟩ := ih h.2 (piece.anchor?.or last)
      refine ⟨last', ?_⟩
      rw [List.cons_append, guarded, hgap, hlast]
      rfl

theorem guarded_of_gapFree {lead : Text} {last : Option Text} {pieces : List Piece}
    (h : pieces.all (!Piece.isGap ·) = true) : guarded lead last pieces = pieces.map unguarded := by
  obtain ⟨last', hlast⟩ := exists_guarded_append h lead last []
  rw [List.append_nil] at hlast
  rw [hlast, guarded, List.append_nil]

end Matcher

theorem Rule.compile_eq_ok {name : String} {pieces : List Piece} {m : Matcher}
    (replacement : Text) (h : Matcher.compile name pieces = .ok m) :
    Rule.compile name pieces replacement = .ok ⟨name, m, replacement⟩ := by
  rw [Rule.compile, h]
  rfl

/-! ## Optional pieces -/

def Piece.isOptional : Piece → Bool
  | optional _ => true
  | _ => false

/-- Optional pieces can be put into a pattern that is parsed. They cover
nothing there. -/
theorem exists_isParse_of_filter {p : Place} {pieces : List Piece} {ws : List Nat}
    (h : IsParse p (pieces.filter (!Piece.isOptional ·)) ws) :
    ∃ vs, IsParse p pieces vs ∧ parseWidth vs = parseWidth ws := by
  induction pieces generalizing p ws with
  | nil => exact ⟨ws, h, rfl⟩
  | cons piece pieces ih =>
      cases hopt : piece.isOptional with
      | true =>
          rw [List.filter_cons_of_neg (by simp [hopt])] at h
          obtain ⟨vs, hvs, hwidth⟩ := ih h
          have hzero : 0 ∈ piece.widths p := by
            cases piece with
            | optional t =>
                rw [Piece.mem_widths]
                exact ⟨Nat.zero_le _, .inr rfl, trivial⟩
            | _ => simp [Piece.isOptional] at hopt
          refine ⟨0 :: vs, .cons hzero (by rwa [Place.skip_zero]), ?_⟩
          rw [parseWidth, Nat.zero_add, hwidth]
      | false =>
          rw [List.filter_cons_of_pos (by simp [hopt])] at h
          cases h with
          | @cons _ _ _ w ws hw hrest =>
              obtain ⟨vs, hvs, hwidth⟩ := ih hrest
              exact ⟨w :: vs, .cons hw hvs, by rw [parseWidth, hwidth, parseWidth]⟩

namespace Stock

/-! ## Generators -/

def generatorMatcher : Matcher :=
  ⟨generatorMarker, Matcher.guarded generatorMarker none generatorBlock⟩

def generatorRule : Rule := ⟨"generator-comment-lines", generatorMatcher, generatorReplacement⟩

theorem compile_generatorBlock (rule : String) :
    Matcher.compile rule generatorBlock = .ok generatorMatcher :=
  Matcher.compile_eq_ok rule (by decide) (by decide)

theorem generatorRules_eq : generatorRules = RuleSet.ofRules [generatorRule] := by
  rw [generatorRules, Rule.compile_eq_ok _ (compile_generatorBlock _)]
  rfl

/-- The gap of a block and what is banned from it: the marker, and the
anchor in front of the gap. -/
theorem parts_generatorMatcher :
    generatorMatcher.parts =
      (generatorBlock.take 9).map Matcher.unguarded
        ++ ⟨.gapWithin generatorBlockLines,
            [generatorMarker, "SqlSchemaUtils.getComment(table)".toList]⟩
        :: (generatorBlock.drop 10).map Matcher.unguarded := by
  decide

theorem isFinal_generatorRule : generatorRule.IsFinal where
  pos _ _ := Matcher.pos_of_compile (compile_generatorBlock "")
  isLocal :=
    Matcher.isLocal_of_oneGap parts_generatorMatcher (by decide) rfl (by decide)
  repels := by decide +kernel

theorem exists_generatorRules :
    ∃ set, generatorRules = .ok set ∧ set.rules = [generatorRule] := by
  rw [generatorRules_eq]
  refine RuleSet.exists_ofRules fun r hr q hq => ?_
  obtain rfl := List.mem_singleton.mp hr
  obtain rfl := List.mem_singleton.mp hq
  exact Matcher.isMatch_eq_false (Matcher.quiet_of_repels isFinal_generatorRule.repels)

/-! ## Templates -/

/-- The compiled loop over the comment lines. -/
def loopMatcher (trimmed : Bool) : Matcher :=
  ⟨"commentLines".toList, (commentLoop trimmed).map Matcher.unguarded⟩

theorem pieces_loopMatcher (trimmed : Bool) : (loopMatcher trimmed).pieces = commentLoop trimmed :=
  Matcher.map_piece_unguarded (commentLoop trimmed)

/-- The rule for loops whose tags carry trim markers, or none. -/
def loopRule (trimmed : Bool) : Rule :=
  ⟨if trimmed then "template-comment-loop-trimmed" else "template-comment-loop-plain",
    loopMatcher trimmed, templateReplacement⟩

theorem compile_commentLoop (rule : String) (trimmed : Bool) :
    Matcher.compile rule (commentLoop trimmed) = .ok (loopMatcher trimmed) := by
  have hlead : (commentLoop trimmed).findSome? Piece.anchor? = some "commentLines".toList := by
    cases trimmed <;> decide
  have hgaps : (commentLoop trimmed).all (!Piece.isGap ·) = true := by
    cases trimmed <;> decide
  have hsmall : (commentLoop trimmed).any Matcher.isTooLarge = false := by
    cases trimmed <;> decide
  rw [Matcher.compile_eq_ok rule hlead hsmall, Matcher.guarded_of_gapFree hgaps]
  rfl

theorem templateRules_eq : templateRules = RuleSet.ofRules [loopRule true, loopRule false] := by
  rw [templateRules, Rule.compile_eq_ok _ (compile_commentLoop _ true),
    Rule.compile_eq_ok _ (compile_commentLoop _ false)]
  rfl

theorem isFinal_loopRule (trimmed : Bool) : (loopRule trimmed).IsFinal where
  pos _ _ := Matcher.pos_of_compile (compile_commentLoop "" trimmed)
  isLocal := Matcher.isLocal_of_unguarded rfl (by cases trimmed <;> decide)
  repels := by cases trimmed <;> decide +kernel

theorem exists_templateRules :
    ∃ set, templateRules = .ok set ∧ set.rules = [loopRule true, loopRule false] := by
  rw [templateRules_eq]
  have quiet : ∀ trimmed, (loopMatcher trimmed).isMatch templateReplacement = false :=
    fun trimmed => Matcher.isMatch_eq_false (Matcher.quiet_of_repels (isFinal_loopRule trimmed).repels)
  refine RuleSet.exists_ofRules fun r hr q hq => ?_
  simp only [List.mem_cons, List.not_mem_nil, or_false] at hr hq
  rcases hr with rfl | rfl <;> rcases hq with rfl | rfl <;> exact quiet _

/-- The loop without trim markers is the loop with optional ones, less
the markers. -/
theorem commentLoop_false :
    commentLoop false = (commentLoop true).filter (!Piece.isOptional ·) := by
  decide

/-- Where loops without trim markers are matched, so are those with them. -/
theorem quiet_loop_false {t : Text} (h : (loopMatcher true).Quiet t) :
    (loopMatcher false).Quiet t := by
  intro n b hn
  cases hw : (loopMatcher false).width? ⟨b, t.drop n⟩ with
  | none => rfl
  | some w =>
      obtain ⟨ws, hpref, -⟩ := Matcher.width?_eq_some_iff.mp hw
      have hparse := isParse_of_preferred hpref
      rw [pieces_loopMatcher, commentLoop_false] at hparse
      obtain ⟨vs, hvs, -⟩ := exists_isParse_of_filter hparse
      have hmatch := Matcher.isSome_width?_of_unguarded (m := loopMatcher true) rfl hvs
      rw [h n b hn] at hmatch
      cases hmatch

/-! ## Both jobs -/

theorem settles_generators {set : RuleSet} (hset : set.rules = [generatorRule]) :
    set.Settles := by
  refine RuleSet.settles_of_passed fun t q hq => ?_
  rw [hset] at hq ⊢
  obtain rfl := List.mem_singleton.mp hq
  exact Matcher.isMatch_eq_false (isFinal_generatorRule.quiet_pass t)

/-- The first pass over a template leaves nothing to the second. -/
theorem quiet_pass_loop (t : Text) (trimmed : Bool) :
    (loopMatcher trimmed).Quiet ((loopRule true).pass t).1 := by
  have htrimmed : (loopMatcher true).Quiet ((loopRule true).pass t).1 :=
    (isFinal_loopRule true).quiet_pass t
  cases trimmed with
  | true => exact htrimmed
  | false => exact quiet_loop_false htrimmed

theorem passAll_loopRules (t : Text) :
    Rule.passAll [loopRule true, loopRule false] t
      = (((loopRule true).pass t).1,
         if ((loopRule true).pass t).2 = 0 then []
         else [("template-comment-loop-trimmed", ((loopRule true).pass t).2)]) := by
  have hsecond : (loopRule false).pass ((loopRule true).pass t).1 = (((loopRule true).pass t).1, 0) :=
    Rule.pass_of_not_isMatch (Matcher.isMatch_eq_false (quiet_pass_loop t false))
  simp only [Rule.passAll, hsecond, if_true]
  rfl

theorem settles_templates {set : RuleSet} (hset : set.rules = [loopRule true, loopRule false]) :
    set.Settles := by
  refine RuleSet.settles_of_passed fun t q hq => ?_
  rw [hset, ← Rule.passAll_fst, passAll_loopRules]
  rw [hset] at hq
  simp only [List.mem_cons, List.not_mem_nil, or_false] at hq
  rcases hq with rfl | rfl
  · exact Matcher.isMatch_eq_false (quiet_pass_loop t true)
  · exact Matcher.isMatch_eq_false (quiet_pass_loop t false)

/-- **The stock rule sets settle every text.** Both can be made, every
text is revised by them, and none of their rules matches the outcome. -/
theorem stock_settles :
    (∃ set, generatorRules = .ok set ∧ set.Settles)
      ∧ ∃ set, templateRules = .ok set ∧ set.Settles := by
  obtain ⟨generators, hg, hgrules⟩ := exists_generatorRules
  obtain ⟨templates, ht, htrules⟩ := exists_templateRules
  exact ⟨⟨generators, hg, settles_generators hgrules⟩,
    ⟨templates, ht, settles_templates htrules⟩⟩

end Stock

end Upkeep
