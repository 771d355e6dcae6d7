import Upkeep.Pattern.Matcher

/-!
# Rules and rule sets

A *rule* replaces every match of its matcher by a fixed text. A *rule
set* is an ordered list of rules in which no rule matches what any of
them writes; `RuleSet.ofRules` refuses every other list.

`RuleSet.revise` runs the rules in order, each on the outcome of the one
before, and copies everything outside the matches. Writing a replacement
between its new neighbours may still create a match. A text that changed
and is matched again is therefore refused: a revision is always final.
-/

namespace Upkeep

/-- A matcher and the text that replaces each of its matches. -/
structure Rule where
  name : String
  matcher : Matcher
  replacement : Text
  deriving Repr, DecidableEq

namespace Rule

def compile (name : String) (pieces : List Piece) (replacement : Text) :
    Except PatternError Rule := do
  return ⟨name, ← Matcher.compile name pieces, replacement⟩

/-- Replace the spans of a text that starts at character `pos`. The spans
are ordered and do not overlap. -/
def spliceFrom (pos : Nat) (replacement : Text) : List Span → Text → Text
  | [], t => t
  | s :: spans, t =>
      t.take (s.start - pos) ++ replacement
        ++ spliceFrom s.stop replacement spans (t.drop (s.stop - pos))

def pass (r : Rule) (t : Text) : Text × Nat :=
  let spans := r.matcher.findAll t
  (spliceFrom 0 r.replacement spans t, spans.length)

/-- Run the rules in order. Every rule with a match is listed with the
number of its matches. -/
def passAll : List Rule → Text → Text × List (String × Nat)
  | [], t => (t, [])
  | r :: rules, t =>
      let once := r.pass t
      let rest := passAll rules once.1
      (rest.1, if once.2 = 0 then rest.2 else (r.name, once.2) :: rest.2)

/-- The first of the rules that matches the text. -/
def firstMatching? (rules : List Rule) (t : Text) : Option Rule :=
  rules.find? (·.matcher.isMatch t)

end Rule

/-- Rules of which none matches what one of them writes. -/
structure RuleSet where
  rules : List Rule
  settled : ∀ r ∈ rules, Rule.firstMatching? rules r.replacement = none

/-- The outcome of running a rule set over a text. -/
structure Revision where
  text : Text
  /-- Each rule that matched, with the number of its matches. -/
  hits : List (String × Nat)
  changed : Bool
  deriving Repr, DecidableEq

/-- The number of matches in a list of hits. -/
def countHits : List (String × Nat) → Nat
  | [] => 0
  | hit :: hits => hit.2 + countHits hits

/-- The number of matches replaced. -/
def Revision.totalHits (r : Revision) : Nat := countHits r.hits

/-- A text that changed and is still matched by `rule`. -/
structure Unsettled where
  rule : String
  deriving Repr, DecidableEq

def Unsettled.message (u : Unsettled) : String :=
  s!"rule `{u.rule}` still matches after rewrite"

namespace RuleSet

/-- The complaint about a rule whose replacement is matched by one of the
rules. -/
def reapplied? (rules : List Rule) (r : Rule) : Option PatternError :=
  (Rule.firstMatching? rules r.replacement).map fun other => .reapplies r.name other.name

theorem firstMatching?_of_reapplied? {rules : List Rule} {r : Rule}
    (h : reapplied? rules r = none) : Rule.firstMatching? rules r.replacement = none := by
  simpa [reapplied?] using h

/-- Make a rule set of a list of rules, unless one of them matches what
one of them writes. -/
def ofRules (rules : List Rule) : Except PatternError RuleSet :=
  match h : rules.findSome? (reapplied? rules) with
  | some e => .error e
  | none =>
      .ok ⟨rules, fun r hr =>
        firstMatching?_of_reapplied? (List.findSome?_eq_none_iff.mp h r hr)⟩

def revise (set : RuleSet) (t : Text) : Except Unsettled Revision :=
  let done := Rule.passAll set.rules t
  if done.1 = t then .ok ⟨done.1, done.2, false⟩
  else
    match Rule.firstMatching? set.rules done.1 with
    | some r => .error ⟨r.name⟩
    | none => .ok ⟨done.1, done.2, true⟩

end RuleSet

end Upkeep
