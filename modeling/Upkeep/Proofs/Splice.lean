import Upkeep.Proofs.Overlap
import Upkeep.Rule.Basic

/-!
# What a pass leaves behind

A pass finds the matches of a rule and puts the replacement in their
place. `Splices` follows the scan instead of the list of spans: a match
is exchanged for the replacement, and every other character is kept. The
two agree (`splices_pass`) as long as no match is empty, and the matches
of a compiled pattern never are (`pos_of_compile`): every pattern has an
anchor.

The main result is that a pass can be final. Suppose

- a match is recognised by its own text, so that the same text is matched
  in any surroundings (`Matcher.IsLocal`), and
- no match shares a character with the replacement (`Matcher.repels`).

Then nothing is matched after the pass (`Rule.IsFinal.quiet_pass`): a match
of the outcome lies clear of all replacements, so its text stood in the
original at a place that the scan looked at, and there it would have been
found.
-/

namespace Upkeep

/-! ## Compiled matchers -/

namespace Matcher

theorem map_piece_guarded (lead : Text) (last : Option Text) (pieces : List Piece) :
    (guarded lead last pieces).map (·.piece) = pieces := by
  induction pieces generalizing last with
  | nil => rfl
  | cons piece pieces ih =>
      rw [guarded]
      split
      · rw [List.map_cons, ih]
      · rw [List.map_cons, ih]

theorem pieces_of_compile {rule : String} {pieces : List Piece} {m : Matcher}
    (h : compile rule pieces = .ok m) :
    m.pieces = pieces ∧ ∃ lead, pieces.findSome? Piece.anchor? = some lead := by
  obtain ⟨lead, hlead, rfl⟩ := exists_of_compile h
  exact ⟨map_piece_guarded lead none pieces, lead, hlead⟩

theorem pos_of_anchor {piece : Piece} {a : Text} {p : Place} {w : Nat}
    (ha : piece.anchor? = some a) (hw : w ∈ piece.widths p) : 0 < w := by
  obtain ⟨hle, hcov, -⟩ := Piece.mem_widths.mp hw
  have pos : ∀ {t : Text}, Piece.anchorLength ≤ t.length → p.rest.take w = t → 0 < w := by
    intro t hlong htake
    have hlen := congrArg List.length htake
    rw [List.length_take] at hlen
    simp only [Piece.anchorLength] at hlong
    omega
  cases piece with
  | literal t =>
      simp only [Piece.anchor?, Option.ite_none_right_eq_some] at ha
      exact pos ha.1 hcov
  | keyword t =>
      simp only [Piece.anchor?, Option.ite_none_right_eq_some] at ha
      exact pos ha.1 hcov
  | _ => simp [Piece.anchor?] at ha

/-- **Parses are never empty**, since every pattern has an anchor. -/
theorem parseWidth_pos_of_compile {rule : String} {pieces : List Piece} {m : Matcher}
    (hm : compile rule pieces = .ok m) {p : Place} {ws : List Nat} (h : IsParse p pieces ws) :
    0 < parseWidth ws := by
  obtain ⟨-, a, ha⟩ := pieces_of_compile hm
  obtain ⟨piece, hmem, hanchor⟩ := List.exists_of_findSome?_eq_some ha
  clear ha hm
  induction h with
  | nil => cases hmem
  | cons hw _ ih =>
      rw [parseWidth]
      rcases List.mem_cons.mp hmem with rfl | hmem
      · exact Nat.add_pos_left (pos_of_anchor hanchor hw) _
      · exact Nat.add_pos_right _ (ih hmem)

theorem pos_of_compile {rule : String} {pieces : List Piece} {m : Matcher}
    (hm : compile rule pieces = .ok m) {p : Place} {w : Nat} (h : m.width? p = some w) :
    0 < w := by
  obtain ⟨ws, hpref, -, rfl⟩ := width?_eq_some_iff.mp h
  rw [(pieces_of_compile hm).1] at hpref
  exact parseWidth_pos_of_compile hm (isParse_of_preferred hpref)

/-! ## Local matchers -/

/-- A matched text is matched wherever else it stands. The match there
may have another width. -/
def IsLocal (m : Matcher) : Prop :=
  ∀ (b b' : Option Char) (x y y' : Text), m.width? ⟨b, x ++ y⟩ = some x.length →
    (m.width? ⟨b', x ++ y'⟩).isSome = true

theorem crosses_append_text (parts : List GuardedPiece) {ws : List Nat} {x : Text} (y y' : Text)
    (h : parseWidth ws ≤ x.length) : crosses parts (x ++ y) ws = crosses parts (x ++ y') ws := by
  induction parts generalizing ws x with
  | nil => rfl
  | cons part parts ih =>
      cases ws with
      | nil => rfl
      | cons w ws =>
          rw [parseWidth] at h
          have hw : w ≤ x.length := by omega
          have hrest : parseWidth ws ≤ (x.drop w).length := by
            rw [List.length_drop]
            omega
          simp only [crosses, List.take_append_of_le_length hw, List.drop_append_of_le_length hw,
            ih hrest]

/-- The preferred parse of a walled pattern also parses its text elsewhere,
and breaks no guard there. -/
theorem exists_transported {m : Matcher} (hwall : Piece.isWalled m.pieces = true)
    {b : Option Char} {x y : Text} (h : m.width? ⟨b, x ++ y⟩ = some x.length)
    (b' : Option Char) (y' : Text) :
    ∃ ws, IsParse ⟨b', x ++ y'⟩ m.pieces ws ∧ crosses m.parts (x ++ y') ws = false := by
  obtain ⟨ws, hpref, hfree, hwidth⟩ := width?_eq_some_iff.mp h
  refine ⟨ws, (isParse_of_preferred hpref).transport hwidth hwall, ?_⟩
  rw [crosses_append_text m.parts y' y (Nat.le_of_eq hwidth)]
  exact hfree

theorem isLocal_of_unguarded {m : Matcher} {pieces : List Piece}
    (hm : m.parts = pieces.map unguarded) (hwall : Piece.isWalled m.pieces = true) :
    m.IsLocal := by
  intro b b' x y y' h
  obtain ⟨ws, hparse, -⟩ := exists_transported hwall h b' y'
  rw [Matcher.pieces, hm, map_piece_unguarded] at hparse
  exact isSome_width?_of_unguarded hm hparse

theorem isLocal_of_oneGap {m : Matcher} {front back : List Piece} {gap : GuardedPiece}
    (hm : m.parts = front.map unguarded ++ gap :: back.map unguarded)
    (hrigid : Piece.isRigid front = true) (hgap : gap.piece.isGap = true)
    (hwall : Piece.isWalled m.pieces = true) : m.IsLocal := by
  intro b b' x y y' h
  obtain ⟨ws, hparse, hfree⟩ := exists_transported hwall h b' y'
  exact isSome_width?_of_oneGap hm (Piece.parsedOnce_of_isRigid hrigid) hgap hparse hfree

/-! ## The scan -/

theorem le_start_of_mem_findFrom {m : Matcher} {b : Option Char} {pos covered : Nat} {t : Text}
    {s : Span} (h : s ∈ m.findFrom b pos covered t) :
    pos + covered ≤ s.start ∧ s.start ≤ s.stop := by
  induction t generalizing b pos covered with
  | nil => cases h
  | cons c t ih =>
      cases covered with
      | succ k =>
          have := ih h
          omega
      | zero =>
          simp only [findFrom] at h
          split at h
          · rcases List.mem_cons.mp h with rfl | h
            · simp
            · have := ih h
              omega
          · have := ih h
            omega

/-- The spans that a scan finds are disjoint and in order. -/
theorem pairwise_findFrom (m : Matcher) (b : Option Char) (pos covered : Nat) (t : Text) :
    (m.findFrom b pos covered t).Pairwise fun s s' => s.stop ≤ s'.start := by
  induction t generalizing b pos covered with
  | nil => exact .nil
  | cons c t ih =>
      cases covered with
      | succ k => exact ih (some c) (pos + 1) k
      | zero =>
          simp only [findFrom]
          split
          · rename_i w hw
            refine List.pairwise_cons.mpr ⟨fun s hs => ?_, ih (some c) (pos + 1) (w - 1)⟩
            have hstart := (le_start_of_mem_findFrom hs).1
            show pos + w ≤ s.start
            omega
          · exact ih (some c) (pos + 1) 0

/-- No place of the text is matched, whatever stands before it. -/
def Quiet (m : Matcher) (t : Text) : Prop :=
  ∀ (n : Nat) (b : Option Char), n < t.length → m.width? ⟨b, t.drop n⟩ = none

theorem findFrom_eq_nil {m : Matcher} {t : Text} (h : m.Quiet t) (b : Option Char) (pos : Nat) :
    m.findFrom b pos 0 t = [] := by
  induction t generalizing b pos with
  | nil => rfl
  | cons c t ih =>
      have hhere : m.width? ⟨b, c :: t⟩ = none := h 0 b (by simp)
      simp only [findFrom, hhere]
      exact ih (fun n b hn => h (n + 1) b (by simpa using hn)) (some c) (pos + 1)

theorem isMatch_eq_false {m : Matcher} {t : Text} (h : m.Quiet t) : m.isMatch t = false := by
  rw [isMatch, findAll_eq_findFrom, findFrom_eq_nil h]
  rfl

theorem quiet_of_repels {m : Matcher} {t : Text} (h : m.repels t = true) : m.Quiet t := by
  intro n b hn
  have hnone := width?_eq_none_of_repels h (b := b) (c := []) hn
  rwa [List.append_nil] at hnone

end Matcher

/-- The scan of `t`, with `b` before it, makes `u` of it: matches are
exchanged for `r`, and the other characters are kept. -/
inductive Splices (m : Matcher) (r : Text) : Option Char → Text → Text → Prop where
  | nil (b : Option Char) : Splices m r b [] []
  | keep {b : Option Char} {c : Char} {t u : Text} :
      m.width? ⟨b, c :: t⟩ = none → Splices m r (some c) t u → Splices m r b (c :: t) (c :: u)
  | exchange {b : Option Char} {x t u : Text} :
      m.width? ⟨b, x ++ t⟩ = some x.length →
        Splices m r (Place.skip ⟨b, x ++ t⟩ x.length).before t u → Splices m r b (x ++ t) (r ++ u)

theorem Rule.spliceFrom_cons {pos : Nat} {r : Text} {spans : List Span} {c : Char} {t : Text}
    (h : ∀ s ∈ spans, pos + 1 ≤ s.start ∧ s.start ≤ s.stop) :
    Rule.spliceFrom pos r spans (c :: t) = c :: Rule.spliceFrom (pos + 1) r spans t := by
  cases spans with
  | nil => rfl
  | cons s spans =>
      obtain ⟨hstart, hstop⟩ := h s (List.mem_cons_self ..)
      have hs : s.start - pos = s.start - (pos + 1) + 1 := by omega
      have he : s.stop - pos = s.stop - (pos + 1) + 1 := by omega
      simp only [Rule.spliceFrom, hs, he, List.take_succ_cons, List.drop_succ_cons,
        List.cons_append]

/-- The spans found from a place on, spliced into the text there. The
induction follows the scan; `covered` characters belong to a match that
has been exchanged already. -/
theorem splices_spliceFrom {m : Matcher} {r : Text}
    (hpos : ∀ (p : Place) (w : Nat), m.width? p = some w → 0 < w)
    (b : Option Char) (pos covered : Nat) (t : Text) :
    Splices m r (Place.skip ⟨b, t⟩ covered).before (t.drop covered)
      (Rule.spliceFrom (pos + covered) r (m.findFrom b pos covered t) (t.drop covered)) := by
  induction t generalizing b pos covered with
  | nil =>
      rw [List.drop_nil]
      exact .nil _
  | cons c t ih =>
      cases covered with
      | succ k =>
          have htail := ih (some c) (pos + 1) k
          rw [Nat.add_right_comm, Nat.add_assoc] at htail
          exact htail
      | zero =>
          simp only [Matcher.findFrom, Place.skip_zero, List.drop_zero, Nat.add_zero]
          cases hw : m.width? ⟨b, c :: t⟩ with
          | none =>
              have hspans : ∀ s ∈ m.findFrom (some c) (pos + 1) 0 t,
                  pos + 1 ≤ s.start ∧ s.start ≤ s.stop :=
                fun s hs => by simpa using Matcher.le_start_of_mem_findFrom hs
              simp only [Rule.spliceFrom_cons hspans]
              exact .keep hw (by simpa using ih (some c) (pos + 1) 0)
          | some w =>
              obtain ⟨k, rfl⟩ := Nat.exists_eq_succ_of_ne_zero
                (Nat.pos_iff_ne_zero.mp (hpos _ _ hw))
              have hle := (spells_of_width? hw).2
              have htext : (c :: t).take (k + 1) ++ t.drop k = c :: t :=
                List.take_append_drop (k + 1) (c :: t)
              have hlen : ((c :: t).take (k + 1)).length = k + 1 := by
                rw [List.length_take]
                exact Nat.min_eq_left hle
              have htail := ih (some c) (pos + 1) k
              rw [Nat.add_right_comm, Nat.add_assoc] at htail
              have hsplice : Splices m r b ((c :: t).take (k + 1) ++ t.drop k)
                  (r ++ Rule.spliceFrom (pos + (k + 1)) r
                    (m.findFrom (some c) (pos + 1) k t) (t.drop k)) := by
                refine .exchange ?_ ?_
                · rw [htext, hlen]
                  exact hw
                · rw [htext, hlen]
                  exact htail
              rw [htext] at hsplice
              simpa [Rule.spliceFrom] using hsplice

/-- A pass does what its scan says. -/
theorem splices_pass {r : Rule}
    (hpos : ∀ (p : Place) (w : Nat), r.matcher.width? p = some w → 0 < w) (t : Text) :
    Splices r.matcher r.replacement none t (r.pass t).1 := by
  have h := @splices_spliceFrom r.matcher r.replacement hpos none 0 0 t
  rw [← Matcher.findAll_eq_findFrom] at h
  simpa [Rule.pass] using h

/-! ## The outcome of a pass -/

/-- In front of the first replacement the scan keeps the text as it is. -/
theorem Splices.take_eq {m : Matcher} {r : Text} {b : Option Char} {t u : Text}
    (h : Splices m r b t u) {w : Nat} (hfree : ∀ a c : Text, u = a ++ (r ++ c) → w ≤ a.length) :
    t.take w = u.take w := by
  induction h generalizing w with
  | nil => rfl
  | @keep b c t u _ _ ih =>
      cases w with
      | zero => rfl
      | succ w =>
          rw [List.take_succ_cons, List.take_succ_cons, ih]
          intro a c' hu
          have hle := hfree (c :: a) c' (by rw [hu, List.cons_append])
          simpa using hle
  | @exchange b x t u _ _ _ =>
      obtain rfl : w = 0 := by simpa using hfree [] u rfl
      rfl

/-- **Nothing is matched in what the scan leaves behind**, if matches are
local and stay clear of the replacement. -/
theorem Splices.quiet {m : Matcher} {r : Text} (hlocal : m.IsLocal) (hrep : m.repels r = true)
    {b : Option Char} {t u : Text} (h : Splices m r b t u) : m.Quiet u := by
  induction h with
  | nil =>
      intro n b' hn
      simp at hn
  | @keep b c t u hnone htail ih =>
      intro n b' hn
      cases n with
      | succ n => exact ih n b' (by simpa using hn)
      | zero =>
          cases hw : m.width? ⟨b', c :: u⟩ with
          | none => rw [List.drop_zero, hw]
          | some w =>
              -- the matched text stood here before the pass, and was not matched
              have hkeep := (Splices.keep hnone htail).take_eq (w := w) fun a c' hu =>
                Matcher.width?_le_of_repels hrep (hu ▸ hw)
              have hlen : ((c :: u).take w).length = w := by
                rw [List.length_take]
                exact Nat.min_eq_left (spells_of_width? hw).2
              have hmatch := hlocal b' b ((c :: u).take w) ((c :: u).drop w) ((c :: t).drop w)
                (by rw [List.take_append_drop, hlen]; exact hw)
              rw [← hkeep, List.take_append_drop, hnone] at hmatch
              cases hmatch
  | @exchange b x t u _ _ ih =>
      intro n b' hn
      rcases Nat.lt_or_ge n r.length with hlt | hge
      · rw [List.drop_append_of_le_length (Nat.le_of_lt hlt)]
        exact Matcher.width?_eq_none_of_repels hrep hlt
      · rw [List.length_append] at hn
        rw [List.drop_append, List.drop_of_length_le hge, List.nil_append]
        exact ih (n - r.length) b' (by omega)

structure Rule.IsFinal (r : Rule) : Prop where
  pos : ∀ (p : Place) (w : Nat), r.matcher.width? p = some w → 0 < w
  isLocal : r.matcher.IsLocal
  repels : r.matcher.repels r.replacement = true

/-- **A final pass** leaves nothing to match. -/
theorem Rule.IsFinal.quiet_pass {r : Rule} (h : r.IsFinal) (t : Text) :
    r.matcher.Quiet (r.pass t).1 :=
  (splices_pass h.pos t).quiet h.isLocal h.repels

end Upkeep
