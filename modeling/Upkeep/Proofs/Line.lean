import Mathlib.Data.List.Infix
import Mathlib.Data.List.TakeWhile
import Upkeep.Text.Line

/-!
# Stretches, lines and the blanks around them

Two functions take texts apart, and each is told here by how its pieces
go together again.

`Text.cut` is told by what it does on an append: the last stretch of the
front and the first stretch of the back become one, and all others stay
(`cut_append`). A text that was put together of lines is therefore cut
into these lines (`cut_ofLines`).

`Text.trim` is told by the blanks it takes away: what is left has no blank
at either end (`Text.IsBare`), and it is the only such text that blanks
alone stand around (`trim_padded`). So blanks that are added on either
side do not matter (`trim_pad`).
-/

namespace Upkeep.Text

/-! ## Stretches -/

theorem cut_ne_nil (sep : Char) (t : Text) : cut sep t ≠ [] := by
  fun_cases cut sep t <;> simp_all

theorem cut_append_cons (sep : Char) (a b : Text) :
    cut sep (a ++ sep :: b) = cut sep a ++ cut sep b := by
  induction a with
  | nil => simp [cut]
  | cons c a ih =>
      obtain ⟨first, rest, hcut⟩ := List.exists_cons_of_ne_nil (cut_ne_nil sep a)
      by_cases hc : c = sep
      · simp [cut, hc, ih]
      · simp [cut, hc, ih, hcut]

theorem cut_of_not_mem {sep : Char} {t : Text} (h : sep ∉ t) : cut sep t = [t] := by
  induction t with
  | nil => rfl
  | cons c t ih =>
      obtain ⟨hc, ht⟩ := not_or.mp (mt List.mem_cons.mpr h)
      simp [cut, Ne.symm hc, ih ht]

theorem cut_cons_of_ne {sep c : Char} (hc : c ≠ sep) {t first : Text} {rest : List Text}
    (h : cut sep t = first :: rest) : cut sep (c :: t) = (c :: first) :: rest := by
  simp [cut, hc, h]

theorem not_mem_of_mem_cut {sep : Char} {t x : Text} (h : x ∈ cut sep t) : sep ∉ x := by
  induction t generalizing x with
  | nil =>
      obtain rfl := List.mem_singleton.mp h
      exact List.not_mem_nil
  | cons c t ih =>
      by_cases hc : c = sep
      · rw [cut, if_pos hc, List.mem_cons] at h
        rcases h with rfl | hx
        · exact List.not_mem_nil
        · exact ih hx
      · obtain ⟨first, rest, hcut⟩ := List.exists_cons_of_ne_nil (cut_ne_nil sep t)
        rw [cut_cons_of_ne hc hcut, List.mem_cons] at h
        rw [hcut] at ih
        rcases h with rfl | hx
        · exact List.not_mem_cons_of_ne_of_not_mem (Ne.symm hc) (ih List.mem_cons_self)
        · exact ih (List.mem_cons_of_mem first hx)

/-- **The stretches of an append**: those of both texts, with the two at
the joint made one. -/
theorem cut_append {sep : Char} {a b x y : Text} {front back : List Text}
    (ha : cut sep a = front ++ [x]) (hb : cut sep b = y :: back) :
    cut sep (a ++ b) = front ++ (x ++ y) :: back := by
  induction a generalizing front x with
  | nil =>
      have hsingle : [] ++ [[]] = front ++ [x] := ha
      obtain ⟨rfl, hx⟩ := List.append_inj' hsingle rfl
      obtain rfl := List.singleton_inj.mp hx
      exact hb
  | cons c a ih =>
      by_cases hc : c = sep
      · rw [cut, if_pos hc] at ha
        cases front with
        | nil => exact absurd (List.cons.inj ha).2 (cut_ne_nil sep a)
        | cons f front =>
            obtain ⟨rfl, htail⟩ := List.cons.inj ha
            rw [List.cons_append, cut, if_pos hc, ih htail]
            rfl
      · obtain ⟨first, rest, hcut⟩ := List.exists_cons_of_ne_nil (cut_ne_nil sep a)
        rw [cut_cons_of_ne hc hcut] at ha
        cases front with
        | nil =>
            obtain ⟨rfl, rfl⟩ := List.cons.inj ha
            have hjoint : cut sep (a ++ b) = [] ++ (first ++ y) :: back := ih hcut
            exact cut_cons_of_ne hc hjoint
        | cons f front =>
            obtain ⟨rfl, rfl⟩ := List.cons.inj ha
            have hjoint : cut sep (a ++ b) = (first :: front) ++ (x ++ y) :: back := ih hcut
            exact cut_cons_of_ne hc hjoint

/-- A text of lines is cut into these lines. Nothing stands behind the
last of them. -/
theorem cut_ofLines {ls : List Text} (h : ∀ l ∈ ls, '\n' ∉ l) :
    cut '\n' (ofLines ls) = ls ++ [[]] := by
  induction ls with
  | nil => rfl
  | cons l ls ih =>
      have htail : ofLines (l :: ls) = l ++ '\n' :: ofLines ls := by
        simp [ofLines]
      rw [htail, cut_append_cons, cut_of_not_mem (h l List.mem_cons_self),
        ih fun x hx => h x (List.mem_cons_of_mem l hx)]
      rfl

/-! ## Trimming -/

/-- A text without a blank at either end. -/
structure IsBare (t : Text) : Prop where
  head : ∀ c, t.head? = some c → isBlank c = false
  last : ∀ c, t.getLast? = some c → isBlank c = false

theorem isBare_iff {t : Text} :
    IsBare t ↔ t.head?.all (!isBlank ·) = true ∧ t.getLast?.all (!isBlank ·) = true := by
  simp only [Option.all_eq_true, Bool.not_eq_true']
  exact ⟨fun h => ⟨h.head, h.last⟩, fun h => ⟨h.1, h.2⟩⟩

instance (t : Text) : Decidable (IsBare t) := decidable_of_iff _ isBare_iff.symm

theorem trimLeft_of_head {t : Text} (h : ∀ c, t.head? = some c → isBlank c = false) :
    trimLeft t = t := by
  cases t with
  | nil => rfl
  | cons c t => exact List.dropWhile_cons_of_neg (by simp [h c rfl])

theorem trimRight_of_last {t : Text} (h : ∀ c, t.getLast? = some c → isBlank c = false) :
    trimRight t = t := by
  have hreverse : t.reverse.dropWhile isBlank = t.reverse :=
    trimLeft_of_head fun c hc => h c (by rwa [List.head?_reverse] at hc)
  rw [trimRight, hreverse, List.reverse_reverse]

theorem trimRight_append {v : Text} (hv : ∀ c ∈ v, isBlank c = true) (t : Text) :
    trimRight (t ++ v) = trimRight t := by
  rw [trimRight, List.reverse_append,
    List.dropWhile_append_of_pos fun c hc => hv c (List.mem_reverse.mp hc), trimRight]

/-- **What trimming leaves** is the bare text that the blanks stand
around. -/
theorem trim_padded {u m v : Text} (hu : ∀ c ∈ u, isBlank c = true)
    (hv : ∀ c ∈ v, isBlank c = true) (hm : IsBare m) : trim (u ++ m ++ v) = m := by
  have hleft : trimLeft (u ++ m ++ v) = trimLeft (m ++ v) := by
    rw [List.append_assoc]
    exact List.dropWhile_append_of_pos hu
  cases m with
  | nil =>
      have hnil : trimLeft ([] ++ v) = [] := List.dropWhile_eq_nil_iff.mpr hv
      rw [trim, hleft, hnil]
      rfl
  | cons c m =>
      have hfront : trimLeft (c :: m ++ v) = c :: m ++ v :=
        trimLeft_of_head fun x hx => hm.head x hx
      rw [trim, hleft, hfront, trimRight_append hv, trimRight_of_last hm.last]

/-- What trimming takes away are blanks on both sides of a bare text. -/
theorem exists_padding (t : Text) :
    ∃ u v, (∀ c ∈ u, isBlank c = true) ∧ (∀ c ∈ v, isBlank c = true)
      ∧ IsBare (trim t) ∧ t = u ++ trim t ++ v := by
  have hback : trimLeft t = trim t ++ ((trimLeft t).reverse.takeWhile isBlank).reverse := by
    rw [trim, trimRight, ← List.reverse_append, List.takeWhile_append_dropWhile,
      List.reverse_reverse]
  refine ⟨t.takeWhile isBlank, ((trimLeft t).reverse.takeWhile isBlank).reverse, ?_, ?_, ⟨?_, ?_⟩, ?_⟩
  · intro c hc
    exact List.mem_takeWhile_imp hc
  · intro c hc
    exact List.mem_takeWhile_imp (List.mem_reverse.mp hc)
  · intro c hc
    have hhead : (trimLeft t).head? = some c := by
      rw [hback, List.head?_append, hc]
      rfl
    have hnot := List.head?_dropWhile_not isBlank t
    rw [trimLeft] at hhead
    rw [hhead] at hnot
    exact hnot
  · intro c hc
    have hnot := List.head?_dropWhile_not isBlank (trimLeft t).reverse
    rw [trim, trimRight, List.getLast?_reverse] at hc
    rw [hc] at hnot
    exact hnot
  · rw [List.append_assoc, ← hback]
    exact List.takeWhile_append_dropWhile.symm

theorem isBare_trim (t : Text) : IsBare (trim t) := by
  obtain ⟨-, -, -, -, hbare, -⟩ := exists_padding t
  exact hbare

theorem trim_isInfix (t : Text) : trim t <:+: t := by
  obtain ⟨u, v, -, -, -, ht⟩ := exists_padding t
  exact ⟨u, v, ht.symm⟩

theorem trim_of_isBare {t : Text} (h : IsBare t) : trim t = t := by
  rw [trim, trimLeft_of_head h.head, trimRight_of_last h.last]

theorem trim_ne_nil {t : Text} {c : Char} (hmem : c ∈ t) (hc : isBlank c = false) :
    trim t ≠ [] := by
  intro hnil
  obtain ⟨u, v, hu, hv, -, ht⟩ := exists_padding t
  rw [hnil, List.append_nil] at ht
  have hblank : isBlank c = true := by
    rw [ht, List.mem_append] at hmem
    exact hmem.elim (hu c) (hv c)
  rw [hblank] at hc
  cases hc

/-- Blanks on either side do not matter. -/
theorem trim_pad {u v : Text} (hu : ∀ c ∈ u, isBlank c = true) (hv : ∀ c ∈ v, isBlank c = true)
    (t : Text) : trim (u ++ t ++ v) = trim t := by
  obtain ⟨u', v', hu', hv', hbare, ht⟩ := exists_padding t
  have hpad : u ++ t ++ v = (u ++ u') ++ trim t ++ (v' ++ v) := by
    conv_lhs => rw [ht]
    simp only [List.append_assoc]
  rw [hpad]
  exact trim_padded (List.forall_mem_append.mpr ⟨hu, hu'⟩) (List.forall_mem_append.mpr ⟨hv', hv⟩)
    hbare

/-! ## Fronts and parts -/

theorem dropFront?_eq_some_iff {front t r : Text} : dropFront? front t = some r ↔ t = front ++ r := by
  induction front generalizing t with
  | nil => simp [dropFront?]
  | cons a front ih =>
      cases t with
      | nil => simp [dropFront?]
      | cons c t =>
          rw [dropFront?]
          split
          · rename_i hac
            rw [ih, hac, List.cons_append, List.cons_inj_right]
          · rename_i hac
            simp [Ne.symm hac]

/-- A part is not to be found in characters that it does not have. -/
theorem infix_append_iff_right {part u : Text} (hne : part ≠ []) (hu : ∀ c ∈ u, c ∉ part)
    (t : Text) : part <:+: u ++ t ↔ part <:+: t := by
  induction u with
  | nil => rfl
  | cons c u ih =>
      have hfront : ¬ part <+: c :: (u ++ t) := by
        obtain ⟨a, part, rfl⟩ := List.exists_cons_of_ne_nil hne
        rw [List.cons_prefix_cons]
        rintro ⟨rfl, -⟩
        exact hu a List.mem_cons_self List.mem_cons_self
      rw [List.cons_append, List.infix_cons_iff, ih fun x hx => hu x (List.mem_cons_of_mem c hx)]
      exact or_iff_right hfront

theorem infix_append_iff_left {part v : Text} (hne : part ≠ []) (hv : ∀ c ∈ v, c ∉ part)
    (t : Text) : part <:+: t ++ v ↔ part <:+: t := by
  rw [← List.reverse_infix, List.reverse_append, infix_append_iff_right, List.reverse_infix]
  · simpa using hne
  · simpa using hv

end Upkeep.Text
