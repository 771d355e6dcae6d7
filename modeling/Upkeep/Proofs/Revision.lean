import Upkeep.Rule.Basic

/-!
# A revision is final

A pass of one rule may create a match for another one, and a replacement
may complete a match together with its new neighbours. `RuleSet.revise`
looks at its outcome once more and refuses a changed text that is still
matched. So whatever the rules are, the outcome of a revision is either
matched by no rule or is the text itself, and revising it again changes
nothing (`revise_idempotent`).

The first part opens `revise` once (`revise_eq_ok`, `revise_eq_error_iff`);
nothing later looks inside.
-/

namespace Upkeep

namespace Rule

/-! ## Passes over a text that is not matched -/

theorem firstMatching?_eq_none_iff {rules : List Rule} {t : Text} :
    firstMatching? rules t = none ↔ ∀ r ∈ rules, r.matcher.isMatch t = false := by
  simp [firstMatching?]

theorem pass_of_not_isMatch {r : Rule} {t : Text} (h : r.matcher.isMatch t = false) :
    r.pass t = (t, 0) := by
  have hnil : r.matcher.findAll t = [] := by
    simpa [Matcher.isMatch] using h
  rw [pass, hnil]
  rfl

theorem passAll_of_not_isMatch {rules : List Rule} {t : Text}
    (h : ∀ r ∈ rules, r.matcher.isMatch t = false) : passAll rules t = (t, []) := by
  induction rules with
  | nil => rfl
  | cons r rules ih =>
      have hpass := pass_of_not_isMatch (h r (List.mem_cons_self ..))
      have hrest := ih fun q hq => h q (List.mem_cons_of_mem _ hq)
      simp only [passAll, hpass, hrest, if_true]

/-- The text after one pass of each rule, in order. -/
def passed (rules : List Rule) (t : Text) : Text := rules.foldl (fun u r => (r.pass u).1) t

theorem passAll_fst (rules : List Rule) (t : Text) : (passAll rules t).1 = passed rules t := by
  induction rules generalizing t with
  | nil => rfl
  | cons r rules ih =>
      rw [passAll]
      exact ih (r.pass t).1

end Rule

namespace RuleSet

/-! ## The outcomes of a revision -/

/-- A text that no rule matches is its own revision. -/
theorem revise_of_not_isMatch {set : RuleSet} {t : Text}
    (h : ∀ r ∈ set.rules, r.matcher.isMatch t = false) :
    set.revise t = .ok ⟨t, [], false⟩ := by
  simp only [revise, Rule.passAll_of_not_isMatch h, if_true]

/-- A revision is what the passes make of the text. It is marked as
changed if it differs, and then no rule matches it. -/
theorem revise_eq_ok {set : RuleSet} {t : Text} {r : Revision} (h : set.revise t = .ok r) :
    r.text = Rule.passed set.rules t ∧ (r.changed = true ↔ r.text ≠ t)
      ∧ (r.changed = true → ∀ q ∈ set.rules, q.matcher.isMatch r.text = false) := by
  rw [← Rule.passAll_fst]
  simp only [revise] at h
  split at h
  · rename_i heq
    obtain rfl := Except.ok.inj h
    exact ⟨rfl, by simp [heq], by simp⟩
  · rename_i hne
    split at h
    · cases h
    · rename_i hnone
      obtain rfl := Except.ok.inj h
      exact ⟨rfl, by simp [hne], fun _ => Rule.firstMatching?_eq_none_iff.mp hnone⟩

theorem hits_of_revise {set : RuleSet} {t : Text} {r : Revision} (h : set.revise t = .ok r) :
    r.hits = (Rule.passAll set.rules t).2 := by
  simp only [revise] at h
  split at h
  · obtain rfl := Except.ok.inj h
    rfl
  · split at h
    · cases h
    · obtain rfl := Except.ok.inj h
      rfl

/-- A revision that is not marked as changed is the text itself. -/
theorem text_of_unchanged {set : RuleSet} {t : Text} {r : Revision} (h : set.revise t = .ok r)
    (hc : r.changed = false) : r.text = t := by
  obtain ⟨-, hchanged, -⟩ := revise_eq_ok h
  refine Decidable.byContradiction fun hne => ?_
  rw [hchanged.mpr hne] at hc
  cases hc

/-- What changed is final. -/
theorem revise_text_of_changed {set : RuleSet} {t : Text} {r : Revision}
    (h : set.revise t = .ok r) (hc : r.changed = true) :
    set.revise r.text = .ok ⟨r.text, [], false⟩ :=
  revise_of_not_isMatch ((revise_eq_ok h).2.2 hc)

/-- A revision fails exactly if the passes change the text into one that
is matched. The first rule that matches it is named. -/
theorem revise_eq_error_iff {set : RuleSet} {t : Text} {e : Unsettled} :
    set.revise t = .error e ↔
      Rule.passed set.rules t ≠ t
        ∧ ∃ front r back, set.rules = front ++ r :: back ∧ e = ⟨r.name⟩
          ∧ r.matcher.isMatch (Rule.passed set.rules t) = true
          ∧ ∀ q ∈ front, q.matcher.isMatch (Rule.passed set.rules t) = false := by
  rw [← Rule.passAll_fst]
  simp only [revise]
  constructor
  · intro h
    split at h
    · cases h
    · rename_i hne
      refine ⟨hne, ?_⟩
      split at h
      · rename_i r hr
        obtain rfl := Except.error.inj h
        obtain ⟨hmatch, front, back, hsplit, hfront⟩ := List.find?_eq_some_iff_append.mp hr
        exact ⟨front, r, back, hsplit, rfl, hmatch, by simpa using hfront⟩
      · cases h
  · rintro ⟨hne, front, r, back, hsplit, rfl, hmatch, hfront⟩
    have hfind : Rule.firstMatching? set.rules (Rule.passAll set.rules t).1 = some r :=
      List.find?_eq_some_iff_append.mpr ⟨hmatch, front, back, hsplit, by simpa using hfront⟩
    rw [if_neg hne, hfind]

/-! ## Idempotence -/

/-- **Revising is idempotent** for every rule set. A revision revised
again stays as it is, and if it differed from the text then no rule hits
it any more. A text is refused exactly if the passes change it into one
that some rule still matches, and the first such rule is named. -/
theorem revise_idempotent (set : RuleSet) (t : Text) :
    (∀ r, set.revise t = .ok r →
      ∃ r', set.revise r.text = .ok r' ∧ r'.text = r.text ∧ r'.changed = false
        ∧ (r.changed = true → r'.hits = []))
    ∧ ∀ e, set.revise t = .error e ↔
        Rule.passed set.rules t ≠ t
          ∧ ∃ front r back, set.rules = front ++ r :: back ∧ e = ⟨r.name⟩
            ∧ r.matcher.isMatch (Rule.passed set.rules t) = true
            ∧ ∀ q ∈ front, q.matcher.isMatch (Rule.passed set.rules t) = false := by
  refine ⟨fun r hr => ?_, fun e => revise_eq_error_iff⟩
  cases hc : r.changed with
  | true => exact ⟨_, revise_text_of_changed hr hc, rfl, rfl, fun _ => rfl⟩
  | false =>
      have htext := text_of_unchanged hr hc
      refine ⟨r, ?_, rfl, hc, fun h => by cases h⟩
      rw [htext]
      exact hr

/-- One rule that shortens a text. What it writes can complete a new match
with the characters behind it. -/
def shortening : RuleSet where
  rules := [⟨"shorten", ⟨"aabbcc".toList, [⟨.literal "aabbcc".toList, []⟩]⟩, "aabb".toList⟩]
  settled := by decide

theorem revise_idempotent_shortening :
    shortening.revise "aabbcc cc".toList = .ok ⟨"aabb cc".toList, [("shorten", 1)], true⟩
      ∧ (∃ r', shortening.revise "aabb cc".toList = .ok r' ∧ r'.text = "aabb cc".toList
        ∧ r'.changed = false ∧ (true = true → r'.hits = []))
      ∧ shortening.revise "aabbcccc".toList = .error ⟨"shorten"⟩ := by
  have hok : shortening.revise "aabbcc cc".toList
      = .ok ⟨"aabb cc".toList, [("shorten", 1)], true⟩ := by rfl
  refine ⟨hok, (revise_idempotent shortening _).1 _ hok, ?_⟩
  refine ((revise_idempotent shortening _).2 _).mpr ⟨by decide, [], _, [], rfl, rfl, by decide, ?_⟩
  intro q hq
  cases hq

end RuleSet

end Upkeep
