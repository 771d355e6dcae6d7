import Mathlib.Algebra.Ring.Nat
import Upkeep.Proofs.Revision
import Upkeep.Proofs.Scan

/-!
# What the passes keep

A run of the rules is a pass for each of them, on the outcome of the one
before. Here a run is told by how it cuts the text. Before a pass the text
is `u₀ m₁ u₁ … mₙ uₙ`, where the `mᵢ` are the stretches that the rule's
matcher finds; behind it, the text is `u₀ R u₁ … R uₙ` with the rule's
replacement `R` as it was written (`Cut`). So everything outside the
matches is kept, and the number of bytes follows (`Cut.byteSize_exchanged`).

A pass is carried out on bytes, slice by slice, and a slice has to be in
order, within the text and cut between characters. `Utf8.splice?` fails
where one is not, and `Cut.splice?_spansFrom` says that no pass ever does: the
spans found are in order and within the text, whatever the matcher, and
the bytes in front of a character end between characters.
-/

namespace Upkeep

/-! ## Slices of bytes -/

namespace Utf8

/-- Byte `i` is the first one of a character, or the end of the bytes. -/
def onBoundary (bytes : List UInt8) (i : Nat) : Bool :=
  match bytes[i]? with
  | some b => decide b.IsUTF8FirstByte
  | none => i == bytes.length

/-- The bytes from `i` up to `j`, which have to be in order, within the
bytes and on boundaries. -/
def slice? (bytes : List UInt8) (i j : Nat) : Option (List UInt8) :=
  if i ≤ j ∧ j ≤ bytes.length ∧ onBoundary bytes i = true ∧ onBoundary bytes j = true then
    some ((bytes.take j).drop i)
  else none

/-- Copy the bytes from `last` on, slice by slice, with `r` in the place
of each range. -/
def splice? (bytes r : List UInt8) : (last : Nat) → List (Nat × Nat) → Option (List UInt8)
  | last, [] => slice? bytes last bytes.length
  | last, (i, j) :: ranges => do
      let kept ← slice? bytes last i
      let rest ← splice? bytes r j ranges
      return kept ++ r ++ rest

/-- A character of two bytes cannot be cut in half, and ranges cannot
overlap. -/
example :
    splice? (encode "aé".toList) [] 0 [(1, 2)] = none
      ∧ splice? (encode "aé".toList) [] 0 [(0, 3), (1, 3)] = none
      ∧ splice? (encode "aé".toList) [] 0 [(1, 3)] = some (encode "a".toList) := by
  decide +kernel

theorem onBoundary_encode (a b : Text) :
    onBoundary (encode (a ++ b)) (Text.byteSize a) = true := by
  have hnext : (encode (a ++ b))[Text.byteSize a]? = (encode b).head? := by
    rw [← length_encode, encode_append, ← List.head?_drop, List.drop_left]
  rw [onBoundary, hnext]
  cases b with
  | nil => simp [encode, ← length_encode]
  | cons c b =>
      have hne : String.utf8EncodeChar c ≠ [] := String.utf8EncodeChar_ne_nil
      have hfirst : ((String.utf8EncodeChar c).head hne).IsUTF8FirstByte := by
        rw [List.head_eq_getElem]
        exact UInt8.isUTF8FirstByte_getElem_zero_utf8EncodeChar
      rw [encode, List.flatMap_cons, List.head?_append, List.head?_eq_some_head hne]
      simpa using hfirst

/-- A stretch of a text can be sliced out of its bytes. -/
theorem slice?_encode (a b c : Text) :
    slice? (encode (a ++ b ++ c)) (Text.byteSize a) (Text.byteSize (a ++ b))
      = some (encode b) := by
  have hstart : onBoundary (encode (a ++ b ++ c)) (Text.byteSize a) = true := by
    rw [List.append_assoc]
    exact onBoundary_encode a (b ++ c)
  have hle : Text.byteSize a ≤ Text.byteSize (a ++ b) := by
    rw [Text.byteSize_append]
    omega
  have hin : Text.byteSize (a ++ b) ≤ (encode (a ++ b ++ c)).length := by
    rw [length_encode, Text.byteSize_append (a ++ b)]
    omega
  have hslice : ((encode (a ++ b ++ c)).take (Text.byteSize (a ++ b))).drop (Text.byteSize a)
      = encode b := by
    rw [encode_append (a ++ b), ← length_encode (a ++ b), List.take_left, encode_append,
      ← length_encode, List.drop_left]
  rw [slice?, if_pos ⟨hle, hin, hstart, onBoundary_encode (a ++ b) c⟩, hslice]

end Utf8

/-! ## Cut texts -/

/-- A text cut at some of its stretches: each of them with what is kept in
front of it, and what is kept behind the last one. -/
structure Cut where
  pairs : List (Text × Text)
  tail : Text

namespace Cut

def text (c : Cut) : Text := c.pairs.flatMap (fun p => p.1 ++ p.2) ++ c.tail

/-- The text with `r` in the place of the stretches. -/
def exchanged (r : Text) (c : Cut) : Text := c.pairs.flatMap (fun p => p.1 ++ r) ++ c.tail

def stretches (c : Cut) : List Text := c.pairs.map (·.2)

/-- Where stretches stand, if what is kept in front of the first one starts
at character `pos`. -/
def spansFrom (pos : Nat) : List (Text × Text) → List Span
  | [] => []
  | (kept, x) :: pairs =>
      ⟨pos + kept.length, pos + kept.length + x.length⟩
        :: spansFrom (pos + kept.length + x.length) pairs

def spans (c : Cut) : List Span := spansFrom 0 c.pairs

theorem text_cons (kept x : Text) (pairs : List (Text × Text)) (tail : Text) :
    text ⟨(kept, x) :: pairs, tail⟩ = kept ++ x ++ text ⟨pairs, tail⟩ := by
  simp only [text, List.flatMap_cons, List.append_assoc]

theorem exchanged_cons (r kept x : Text) (pairs : List (Text × Text)) (tail : Text) :
    exchanged r ⟨(kept, x) :: pairs, tail⟩ = kept ++ r ++ exchanged r ⟨pairs, tail⟩ := by
  simp only [exchanged, List.flatMap_cons, List.append_assoc]

theorem length_spansFrom (pos : Nat) (pairs : List (Text × Text)) :
    (spansFrom pos pairs).length = pairs.length := by
  induction pairs generalizing pos with
  | nil => rfl
  | cons p pairs ih => rw [spansFrom, List.length_cons, List.length_cons, ih]

/-- Each stretch that is exchanged makes the difference. -/
theorem byteSize_exchanged (r : Text) (c : Cut) :
    Text.byteSize (c.exchanged r) + Text.byteSize c.stretches.flatten
      = Text.byteSize c.text + c.pairs.length * Text.byteSize r := by
  obtain ⟨pairs, tail⟩ := c
  induction pairs with
  | nil => simp [exchanged, text, stretches, Text.byteSize]
  | cons p pairs ih =>
      obtain ⟨kept, x⟩ := p
      simp only [stretches] at ih
      simp only [text_cons, exchanged_cons, stretches, List.map_cons, List.flatten_cons,
        Text.byteSize_append, List.length_cons, Nat.succ_mul]
      omega

/-- **Splicing the bytes never fails** and gives the bytes of the exchanged
text. The induction is on the stretches; `front` has been copied. -/
theorem splice?_spansFrom (r front : Text) {t tail : Text} {pairs : List (Text × Text)}
    (ht : t = front ++ text ⟨pairs, tail⟩) :
    Utf8.splice? (Utf8.encode t) (Utf8.encode r) (Text.byteSize front)
        ((spansFrom front.length pairs).map (Span.inBytes t))
      = some (Utf8.encode (exchanged r ⟨pairs, tail⟩)) := by
  induction pairs generalizing front with
  | nil =>
      have hslice := Utf8.slice?_encode front tail []
      rw [List.append_nil, ← Utf8.length_encode (front ++ tail)] at hslice
      rw [ht]
      exact hslice
  | cons p pairs ih =>
      obtain ⟨kept, x⟩ := p
      rw [text_cons] at ht
      have hcut : t = front ++ kept ++ (x ++ text ⟨pairs, tail⟩) := by
        simp only [ht, List.append_assoc]
      have hafter : t = front ++ kept ++ x ++ text ⟨pairs, tail⟩ := by
        simp only [ht, List.append_assoc]
      have hstart : t.take (front.length + kept.length) = front ++ kept := by
        rw [hcut]
        exact List.take_left' List.length_append
      have hstop : t.take (front.length + kept.length + x.length) = front ++ kept ++ x := by
        rw [hafter]
        exact List.take_left' (by simp only [List.length_append])
      have hkept := Utf8.slice?_encode front kept (x ++ text ⟨pairs, tail⟩)
      rw [← hcut] at hkept
      have hrest := ih _ hafter
      rw [List.length_append, List.length_append] at hrest
      simp only [spansFrom, List.map_cons, Span.inBytes, hstart, hstop, Utf8.splice?] at hrest ⊢
      rw [hkept, hrest, exchanged_cons, Utf8.encode_append, Utf8.encode_append]
      rfl

/-- **Splicing follows the cut.** Spans in order and within the text cut it,
and splicing them exchanges the stretches. The induction is on the spans;
what comes before character `pos` is done. -/
theorem exists_spansFrom {t : Text} {spans : List Span} (r : Text)
    (hfit : ∀ s ∈ spans, s.start ≤ s.stop ∧ s.stop ≤ t.length)
    (horder : spans.Pairwise fun s s' => s.stop ≤ s'.start) {pos : Nat}
    (hpos : ∀ s ∈ spans, pos ≤ s.start) :
    ∃ pairs tail, spansFrom pos pairs = spans ∧ text ⟨pairs, tail⟩ = t.drop pos
      ∧ stretches ⟨pairs, tail⟩ = spans.map (fun s => (t.drop s.start).take (s.stop - s.start))
      ∧ Rule.spliceFrom pos r spans (t.drop pos) = exchanged r ⟨pairs, tail⟩ := by
  induction spans generalizing pos with
  | nil => exact ⟨[], t.drop pos, rfl, rfl, rfl, rfl⟩
  | cons s spans ih =>
      obtain ⟨start, stop⟩ := s
      obtain ⟨hafter, horder⟩ := List.pairwise_cons.mp horder
      obtain ⟨hle, hstop⟩ : start ≤ stop ∧ stop ≤ t.length := hfit _ List.mem_cons_self
      have hstart : pos ≤ start := hpos _ List.mem_cons_self
      obtain ⟨pairs, tail, hspans, htext, hslices, hsplice⟩ :=
        ih (fun s hs => hfit s (List.mem_cons_of_mem _ hs)) horder hafter
      have hkept : ((t.drop pos).take (start - pos)).length = start - pos := by
        rw [List.length_take, List.length_drop]
        omega
      have hx : ((t.drop start).take (stop - start)).length = stop - start := by
        rw [List.length_take, List.length_drop]
        omega
      have hin : pos + (start - pos) = start := by omega
      have hout : start + (stop - start) = stop := by omega
      have hbehind : (t.drop pos).drop (stop - pos) = t.drop stop := by
        rw [List.drop_drop, Nat.add_sub_cancel' (Nat.le_trans hstart hle)]
      refine ⟨((t.drop pos).take (start - pos), (t.drop start).take (stop - start)) :: pairs, tail,
        ?_, ?_, ?_, ?_⟩
      · rw [spansFrom, hkept, hx, hin, hout, hspans]
      · -- the stretch and what is behind it are what is left at its start
        have hrest : (t.drop start).take (stop - start) ++ t.drop stop = t.drop start := by
          rw [← hout, ← List.drop_drop, hout, List.take_append_drop]
        rw [text_cons, htext, List.append_assoc, hrest, ← hin, ← List.drop_drop, hin,
          List.take_append_drop]
      · rw [List.map_cons, ← hslices]
        rfl
      · rw [Rule.spliceFrom, hbehind, hsplice, exchanged_cons]

end Cut

/-! ## The run of a rule set -/

namespace Matcher

theorem stop_le_of_mem_findFrom {m : Matcher} {b : Option Char} {pos covered : Nat} {t : Text}
    {s : Span} (h : s ∈ m.findFrom b pos covered t) : s.stop ≤ pos + t.length := by
  induction t generalizing b pos covered with
  | nil => cases h
  | cons c t ih =>
      rw [List.length_cons]
      cases covered with
      | succ k =>
          have hle := ih h
          omega
      | zero =>
          simp only [findFrom] at h
          split at h
          · rename_i w hw
            have hwidth := (spells_of_width? hw).2
            rcases List.mem_cons.mp h with rfl | h
            · simpa using hwidth
            · have hle := ih h
              omega
          · have hle := ih h
            omega

end Matcher

/-- A pass of a rule over a text that is cut where the rule matches. -/
structure Pass where
  rule : Rule
  cut : Cut

namespace Pass

def outcome (p : Pass) : Text := p.cut.exchanged p.rule.replacement

/-- The rule and the number of its matches, if there are any. -/
def hit? (p : Pass) : Option (String × Nat) :=
  if p.cut.pairs = [] then none else some (p.rule.name, p.cut.pairs.length)

def removed (p : Pass) : Nat := Text.byteSize p.cut.stretches.flatten

def added (p : Pass) : Nat := p.cut.pairs.length * Text.byteSize p.rule.replacement

/-- The text is cut where the rule matches, and the bytes in between can be
copied slice by slice. -/
structure Fits (p : Pass) : Prop where
  found : p.cut.spans = p.rule.matcher.findAll p.cut.text
  sliced :
    Utf8.splice? (Utf8.encode p.cut.text) (Utf8.encode p.rule.replacement) 0
        ((p.rule.matcher.findAll p.cut.text).map (Span.inBytes p.cut.text))
      = some (Utf8.encode p.outcome)

end Pass

/-- The rules lead from `t` to `u`, each by a pass over the outcome of the
one before. -/
inductive Runs : List Rule → Text → List Pass → Text → Prop where
  | nil (t : Text) : Runs [] t [] t
  | cons {rules : List Rule} {p : Pass} {passes : List Pass} {u : Text} :
      p.Fits → Runs rules p.outcome passes u → Runs (p.rule :: rules) p.cut.text (p :: passes) u

/-- What a rule does to a text is a pass. -/
theorem Rule.exists_pass (r : Rule) (t : Text) :
    ∃ p : Pass, p.rule = r ∧ p.cut.text = t ∧ p.Fits
      ∧ r.pass t = (p.outcome, p.cut.pairs.length) := by
  have horder := r.matcher.pairwise_findFrom none 0 0 t
  have hfit : ∀ s ∈ r.matcher.findFrom none 0 0 t, s.start ≤ s.stop ∧ s.stop ≤ t.length := by
    intro s hs
    have hle := Matcher.stop_le_of_mem_findFrom hs
    rw [Nat.zero_add] at hle
    exact ⟨(Matcher.le_start_of_mem_findFrom hs).2, hle⟩
  rw [← Matcher.findAll_eq_findFrom] at horder hfit
  obtain ⟨pairs, tail, hspans, htext, -, hsplice⟩ :=
    Cut.exists_spansFrom r.replacement hfit horder fun s _ => Nat.zero_le s.start
  rw [List.drop_zero] at htext hsplice
  have hsliced := Cut.splice?_spansFrom r.replacement [] htext.symm
  refine ⟨⟨r, ⟨pairs, tail⟩⟩, rfl, htext, ⟨?_, ?_⟩, ?_⟩
  · rw [Cut.spans, hspans, htext]
  · rw [htext, ← hspans]
    exact hsliced
  · rw [Rule.pass, hsplice, ← hspans, Cut.length_spansFrom]
    rfl

/-- **The rules always run**, and the run is what `passAll` computes. -/
theorem exists_runs (rules : List Rule) (t : Text) :
    ∃ passes, Runs rules t passes (Rule.passAll rules t).1
      ∧ (Rule.passAll rules t).2 = passes.filterMap Pass.hit? := by
  induction rules generalizing t with
  | nil => exact ⟨[], .nil t, rfl⟩
  | cons r rules ih =>
      obtain ⟨p, rfl, rfl, hfits, hpass⟩ := r.exists_pass t
      obtain ⟨passes, hruns, hhits⟩ := ih p.outcome
      refine ⟨p :: passes, ?_, ?_⟩
      · simp only [Rule.passAll, hpass]
        exact .cons hfits hruns
      · simp only [Rule.passAll, hpass, hhits, List.filterMap_cons, Pass.hit?,
          List.length_eq_zero_iff]
        split <;> rfl

theorem Runs.map_rule {rules : List Rule} {t u : Text} {passes : List Pass}
    (h : Runs rules t passes u) : passes.map (·.rule) = rules := by
  induction h with
  | nil => rfl
  | cons _ _ ih => rw [List.map_cons, ih]

/-- What a run puts in and takes out makes the difference in bytes. -/
theorem Runs.byteSize {rules : List Rule} {t u : Text} {passes : List Pass}
    (h : Runs rules t passes u) :
    Text.byteSize u + (passes.map Pass.removed).sum
      = Text.byteSize t + (passes.map Pass.added).sum := by
  induction h with
  | nil => rfl
  | @cons rules p passes u _ _ ih =>
      have hpass := p.cut.byteSize_exchanged p.rule.replacement
      simp only [List.map_cons, List.sum_cons, Pass.removed, Pass.added, Pass.outcome] at ih ⊢
      omega

namespace RuleSet

/-- **Everything outside the matches is preserved**, for every rule set and
text. The rules run one after the other; each pass cuts its text at the
matches, exchanges these for the replacement and keeps the rest, and no
slice is out of order, out of range or within a character. What the passes
put in and take out makes the difference in bytes. A revision is the
outcome of the run, and its hits are the rules that matched, in order and
with the number of their matches. -/
theorem revise_preserves (set : RuleSet) (t : Text) :
    ∃ passes u, Runs set.rules t passes u
      ∧ passes.map (·.rule) = set.rules
      ∧ Text.byteSize u + (passes.map Pass.removed).sum
        = Text.byteSize t + (passes.map Pass.added).sum
      ∧ ∀ r, set.revise t = .ok r → r.text = u ∧ r.hits = passes.filterMap Pass.hit? := by
  obtain ⟨passes, hruns, hhits⟩ := exists_runs set.rules t
  refine ⟨passes, _, hruns, hruns.map_rule, hruns.byteSize, ?_⟩
  intro r hr
  refine ⟨?_, ?_⟩
  · rw [(revise_eq_ok hr).1, Rule.passAll_fst]
  · rw [hits_of_revise hr, hhits]

/-- Two rules, of which the first writes what looks like a reference to a
group. -/
def twoCalls : RuleSet where
  rules :=
    [⟨"alpha", ⟨"alphaCall".toList, [⟨.literal "alphaCall".toList, []⟩]⟩, "$1 é".toList⟩,
     ⟨"beta", ⟨"betaCall".toList, [⟨.literal "betaCall".toList, []⟩]⟩, "b".toList⟩]
  settled := by decide

theorem revise_preserves_twoCalls :
    twoCalls.revise "é betaCall alphaCall é betaCall".toList
        = .ok ⟨"é b $1 é é b".toList, [("alpha", 1), ("beta", 2)], true⟩
      ∧ ∃ passes, Runs twoCalls.rules "é betaCall alphaCall é betaCall".toList passes
          "é b $1 é é b".toList
        ∧ passes.filterMap Pass.hit? = [("alpha", 1), ("beta", 2)] := by
  have hok : twoCalls.revise "é betaCall alphaCall é betaCall".toList
      = .ok ⟨"é b $1 é é b".toList, [("alpha", 1), ("beta", 2)], true⟩ := by decide +kernel
  obtain ⟨passes, u, hruns, -, -, hrevised⟩ := revise_preserves twoCalls _
  obtain ⟨rfl, hhits⟩ := hrevised _ hok
  exact ⟨hok, passes, hruns, hhits.symm⟩

end RuleSet

end Upkeep
