import Upkeep.Toml.Document

/-!
# How values are written

TOML leaves a writer some freedom. A character of a string may stand for
itself, have a short escape or be given by its code point; spaces may
stand around every token of a line, and the items of an array may stand
on lines of their own, with a comma behind the last one or without. The
relations below say which texts are written forms of a string (`Quoted`),
of an array (`Listed`) and of a table of strings in braces (`Braced`).
None of them mentions the reader.

Every value has a written form, and a written form is read back whatever
follows it (`value_quoted`, `value_listed`, `value_braced`). What follows
a string may only not be a quote, as two quotes and a third one open a
string across lines.
-/

namespace Upkeep.Toml

/-! ## Characters of a string -/

/-- The hexadecimal digit of a number, in small or in capital letters. -/
def IsHex (n : Nat) (c : Char) : Prop :=
  (c, n) ∈ "0123456789abcdef".toList.zipIdx ∨ (c, n) ∈ "0123456789ABCDEF".toList.zipIdx

instance (n : Nat) (c : Char) : Decidable (IsHex n c) := inferInstanceAs (Decidable (_ ∨ _))

/-- Hexadecimal digits of a number. There may be zeros in front. -/
inductive Hexadecimal : Nat → Text → Prop
  | nil : Hexadecimal 0 []
  | snoc {n d : Nat} {ds : Text} {c : Char} :
      Hexadecimal n ds → IsHex d c → Hexadecimal (16 * n + d) (ds ++ [c])

/-- The characters that may stand for themselves: a tab, and all from the
space on but the quote, the backslash and the delete character. -/
def IsUnescaped (c : Char) : Prop :=
  c = '\t' ∨ c = ' ' ∨ c = '!' ∨ ('#' ≤ c ∧ c ≤ '[') ∨ (']' ≤ c ∧ c ≤ '~') ∨ 0x80 ≤ c.toNat

instance (c : Char) : Decidable (IsUnescaped c) := inferInstanceAs (Decidable (_ ∨ _))

/-- The characters that may follow a backslash, with the code points that
they stand for. -/
def shortEscapes : List (Char × Nat) :=
  [('b', 0x08), ('t', 0x09), ('n', 0x0A), ('f', 0x0C), ('r', 0x0D), ('"', 0x22), ('\\', 0x5C)]

/-- The ways to write one character of a string. -/
inductive Escaped : Char → Text → Prop
  | plain {c : Char} : IsUnescaped c → Escaped c [c]
  | short {c e : Char} : (e, c.toNat) ∈ shortEscapes → Escaped c ['\\', e]
  | four {c : Char} {ds : Text} :
      Hexadecimal c.toNat ds → ds.length = 4 → Escaped c ('\\' :: 'u' :: ds)
  | eight {c : Char} {ds : Text} :
      Hexadecimal c.toNat ds → ds.length = 8 → Escaped c ('\\' :: 'U' :: ds)

theorem hexDigit?_of_isHex {n : Nat} {c : Char} (h : IsHex n c) : hexDigit? c = some n := by
  have hsmall : ∀ x ∈ "0123456789abcdef".toList.zipIdx, hexDigit? x.1 = some x.2 := by decide
  have hcapital : ∀ x ∈ "0123456789ABCDEF".toList.zipIdx, hexDigit? x.1 = some x.2 := by decide
  exact h.elim (hsmall _) (hcapital _)

theorem foldlM_hexadecimal {n : Nat} {ds : Text} (h : Hexadecimal n ds) :
    ds.foldlM (fun n c => (hexDigit? c).map (16 * n + ·)) 0 = some n := by
  induction h with
  | nil => rfl
  | snoc _ hd ih => simp [List.foldlM_append, ih, hexDigit?_of_isHex hd]

theorem codePoint?_hexadecimal {c : Char} {ds : Text} (h : Hexadecimal c.toNat ds) :
    codePoint? ds = some c := by
  have hvalid : c.toNat < 0xD800 ∨ 0xE000 ≤ c.toNat ∧ c.toNat ≤ 0x10FFFF := by
    have hc : c.toNat.isValidChar := c.valid
    unfold Nat.isValidChar at hc
    omega
  simp only [codePoint?, foldlM_hexadecimal h, Option.bind_eq_bind, Option.bind_some]
  rw [if_pos (by simpa using hvalid), Char.ofNat_toNat]

theorem exists_isHex {d : Nat} (h : d < 16) : ∃ c, IsHex d c := by
  have hdigit : ∀ d < 16, ∃ x ∈ "0123456789abcdef".toList.zipIdx, x.2 = d := by decide
  obtain ⟨x, hx, rfl⟩ := hdigit d h
  exact ⟨x.1, .inl hx⟩

theorem exists_hexadecimal (k : Nat) {n : Nat} (h : n < Nat.pow 16 k) :
    ∃ ds, Hexadecimal n ds ∧ ds.length = k := by
  induction k generalizing n with
  | zero =>
      obtain rfl : n = 0 := Nat.lt_one_iff.mp h
      exact ⟨[], .nil, rfl⟩
  | succ k ih =>
      have hhigh : n / 16 < Nat.pow 16 k := Nat.div_lt_of_lt_mul (Nat.mul_comm _ 16 ▸ h)
      obtain ⟨ds, hds, hlen⟩ := ih hhigh
      obtain ⟨c, hc⟩ := exists_isHex (Nat.mod_lt n (by decide))
      refine ⟨ds ++ [c], ?_, by rw [List.length_append, hlen]; rfl⟩
      rw [← Nat.div_add_mod n 16]
      exact .snoc hds hc

theorem exists_escaped (c : Char) : ∃ w, Escaped c w := by
  have hc : c.toNat < Nat.pow 16 8 := by
    have hvalid : c.toNat.isValidChar := c.valid
    unfold Nat.isValidChar at hvalid
    have hlimit : 0x110000 < Nat.pow 16 8 := by decide
    omega
  obtain ⟨ds, hds, hlen⟩ := exists_hexadecimal 8 hc
  exact ⟨_, .eight hds hlen⟩

/-- No written character starts with a quote. -/
theorem Escaped.exists_cons {c : Char} {w : Text} (h : Escaped c w) :
    ∃ x t, w = x :: t ∧ x ≠ '"' := by
  cases h with
  | plain hc =>
      refine ⟨c, [], rfl, ?_⟩
      rintro rfl
      revert hc
      unfold IsUnescaped
      decide
  | short => exact ⟨_, _, rfl, by decide⟩
  | four => exact ⟨_, _, rfl, by decide⟩
  | eight => exact ⟨_, _, rfl, by decide⟩

theorem IsUnescaped.isPlain {c : Char} (h : IsUnescaped c) :
    isPlain c = true ∧ c ≠ '"' ∧ c ≠ '\\' := by
  have hranges : c.toNat = 0x09 ∨ (0x20 ≤ c.toNat ∧ c.toNat ≠ 0x22 ∧ c.toNat ≠ 0x5C
      ∧ c.toNat ≠ 0x7F) := by
    obtain rfl | rfl | rfl | h | h | h := h
    · decide
    · decide
    · decide
    · have hlow : 0x23 ≤ c.toNat := h.1
      have hhigh : c.toNat ≤ 0x5B := h.2
      omega
    · have hlow : 0x5D ≤ c.toNat := h.1
      have hhigh : c.toNat ≤ 0x7E := h.2
      omega
    · omega
  refine ⟨?_, ?_, ?_⟩
  · obtain htab | ⟨hspace, -, -, hdelete⟩ := hranges
    · obtain rfl : c = '\t' := Char.toNat_inj.mp htab
      rfl
    · simp [Toml.isPlain, hspace, hdelete]
  · rintro rfl
    revert hranges
    decide
  · rintro rfl
    revert hranges
    decide

/-- One written character is read as that character. -/
theorem basic_escaped {c : Char} {w : Text} (h : Escaped c w) (s : Text) :
    basic (w ++ s) = before [c] (basic s) := by
  cases h with
  | plain hc =>
      obtain ⟨hplain, hquote, hslash⟩ := hc.isPlain
      simp [basic, hplain, hslash]
  | @short e he =>
      have hshort : ∀ x ∈ shortEscapes, shortEscape? x.1 = some (Char.ofNat x.2) := by decide
      have hletter : ∀ x ∈ shortEscapes, x.1 ≠ 'u' ∧ x.1 ≠ 'U' := by decide
      have hread : shortEscape? e = some c := by rw [hshort _ he, Char.ofNat_toNat]
      -- a `u` would be taken for the start of a code point
      obtain ⟨hu, hU⟩ : e ≠ 'u' ∧ e ≠ 'U' := hletter _ he
      show basic ('\\' :: e :: s) = _
      rw [basic, hread]
      · exact fun _ _ _ _ _ h _ => hu h
      · exact fun _ _ _ _ _ _ _ _ _ h _ => hU h
  | @four ds hds hlen =>
      match ds, hlen with
      | [a, b, c, d], _ => simp [basic, codePoint?_hexadecimal hds]
  | @eight ds hds hlen =>
      match ds, hlen with
      | [a, b, c, d, e, f, g, h], _ => simp [basic, codePoint?_hexadecimal hds]

/-! ## Strings -/

inductive Spelled : Text → Text → Prop
  | nil : Spelled [] []
  | cons {c : Char} {s w body : Text} :
      Escaped c w → Spelled s body → Spelled (c :: s) (w ++ body)

/-- The ways to write a string on one line. -/
def Quoted (s w : Text) : Prop := ∃ body, Spelled s body ∧ w = '"' :: (body ++ ['"'])

theorem exists_spelled (s : Text) : ∃ body, Spelled s body := by
  induction s with
  | nil => exact ⟨[], .nil⟩
  | cons c s ih =>
      obtain ⟨w, hw⟩ := exists_escaped c
      obtain ⟨body, hbody⟩ := ih
      exact ⟨w ++ body, .cons hw hbody⟩

theorem quoted_of_unescaped {s : Text} (h : ∀ c ∈ s, IsUnescaped c) :
    Quoted s ('"' :: (s ++ ['"'])) := by
  refine ⟨s, ?_, rfl⟩
  induction s with
  | nil => exact .nil
  | cons c s ih => exact .cons (.plain (h c (by simp))) (ih fun x hx => h x (by simp [hx]))

theorem exists_quoted (s : Text) : ∃ w, Quoted s w := by
  obtain ⟨body, hbody⟩ := exists_spelled s
  exact ⟨_, body, hbody, rfl⟩

theorem basic_spelled {s body : Text} (h : Spelled s body) (rest : Text) :
    basic (body ++ '"' :: rest) = some (s, rest) := by
  induction h with
  | nil => rfl
  | cons hw _ ih =>
      rw [List.append_assoc, basic_escaped hw, ih]
      rfl

theorem string_quoted {s w rest : Text} (h : Quoted s w) (hrest : rest.head? ≠ some '"') :
    string (w ++ rest) = some (s, rest) := by
  obtain ⟨body, hbody, rfl⟩ := h
  have hread := basic_spelled hbody rest
  rw [List.cons_append, List.append_assoc, List.singleton_append]
  rw [string, hread]
  -- with a third quote at its start this would be a string across lines
  intro t ht
  cases hbody with
  | nil =>
      rw [List.nil_append, List.cons.injEq] at ht
      exact hrest (by rw [ht.2, List.head?_cons])
  | cons hw hmore =>
      obtain ⟨x, more, rfl, hx⟩ := hw.exists_cons
      exact hx (List.cons.inj ht).1

theorem value_quoted {s w rest : Text} (h : Quoted s w) (hrest : rest.head? ≠ some '"')
    (depth : Nat) : value depth (w ++ rest) = some (.string s, rest) := by
  have hread := string_quoted h hrest
  obtain ⟨body, -, rfl⟩ := h
  rw [List.cons_append] at hread ⊢
  rw [value, hread]
  rfl

/-! ## Space between tokens -/

def IsGap (g : Text) : Prop := ∀ c ∈ g, c = ' ' ∨ c = '\t'

def IsBreak (b : Text) : Prop := b = ['\n'] ∨ b = ['\r', '\n']

/-- Spaces, tabs and line breaks. -/
inductive IsFiller : Text → Prop
  | nil : IsFiller []
  | space {c : Char} {g : Text} : c = ' ' ∨ c = '\t' → IsFiller g → IsFiller (c :: g)
  | lineBreak {b g : Text} : IsBreak b → IsFiller g → IsFiller (b ++ g)

theorem isGap_nil : IsGap [] := fun _ hc => absurd hc List.not_mem_nil

theorem isSpace_iff {c : Char} : isSpace c = true ↔ c = ' ' ∨ c = '\t' := by
  simp [isSpace]

theorem skipSpace_gap {g : Text} (h : IsGap g) (s : Text) : skipSpace (g ++ s) = skipSpace s :=
  List.dropWhile_append_of_pos fun c hc => isSpace_iff.mpr (h c hc)

theorem skipSpace_cons {c : Char} (h : isSpace c = false) (s : Text) :
    skipSpace (c :: s) = c :: s :=
  List.dropWhile_cons_of_neg (by simp [h])

theorem IsGap.isFiller {g : Text} (h : IsGap g) : IsFiller g := by
  induction g with
  | nil => exact .nil
  | cons c g ih => exact .space (h c (by simp)) (ih fun x hx => h x (by simp [hx]))

theorem skipFiller_filler {g : Text} (h : IsFiller g) (s : Text) :
    skipFiller false (g ++ s) = skipFiller false s := by
  induction h with
  | nil => rfl
  | space hc _ ih => obtain rfl | rfl := hc <;> exact ih
  | lineBreak hb _ ih => obtain rfl | rfl := hb <;> exact ih

/-- The first character of a token: it neither belongs to a filler nor
opens a comment. -/
def IsTokenStart (c : Char) : Prop := c ∉ " \t\n\r#".toList

instance (c : Char) : Decidable (IsTokenStart c) := inferInstanceAs (Decidable (c ∉ _))

theorem IsTokenStart.isSpace {c : Char} (h : IsTokenStart c) : isSpace c = false := by
  refine Bool.eq_false_iff.mpr fun hspace => ?_
  obtain rfl | rfl := isSpace_iff.mp hspace <;> exact absurd h (by decide)

theorem skipFiller_cons {c : Char} (h : IsTokenStart c) (s : Text) :
    skipFiller false (c :: s) = some (c :: s) := by
  have hhash : c ≠ '#' := fun hc => absurd (hc ▸ h) (by decide)
  rw [skipFiller]
  · simp [h.isSpace, hhash]
  · exact fun hc => absurd (hc ▸ h) (by decide)
  · exact fun _ hc => absurd (hc ▸ h) (by decide)

theorem IsFiller.head?_append {g s : Text} (h : IsFiller g) (hs : s.head? ≠ some '"') :
    (g ++ s).head? ≠ some '"' := by
  cases h with
  | nil => exact hs
  | space hx _ => obtain rfl | rfl := hx <;> simp
  | lineBreak hb _ => obtain rfl | rfl := hb <;> simp

/-- A reader of values undoes a way of writing: it reads what is written
for `x` as `f x`, and leaves what follows. What is written starts a token,
and no closing bracket could be taken for it. -/
structure Undoes {α : Type} (r : Reader Value) (W : α → Text → Prop) (f : α → Value) :
    Prop where
  starts {x : α} {w : Text} : W x w → ∃ c t, w = c :: t ∧ IsTokenStart c ∧ c ≠ ']'
  reads {x : α} {w rest : Text} : W x w → rest.head? ≠ some '"' → r (w ++ rest) = some (f x, rest)

theorem undoes_quoted (depth : Nat) : Undoes (value depth) Quoted Value.string where
  starts := by
    rintro s w ⟨body, -, rfl⟩
    exact ⟨_, _, rfl, by decide, by decide⟩
  reads h hrest := value_quoted h hrest depth

/-! ## Arrays -/

section Arrays

variable {α : Type} {W : α → Text → Prop} {r : Reader Value} {f : α → Value}

/-- The ways to write the items of an array, if `W` tells those for one
item. An item may be followed by a comma, and all but the last have to be. -/
inductive Items (W : α → Text → Prop) : List α → Text → Prop
  | nil {g : Text} : IsFiller g → Items W [] g
  | last {x : α} {g w g' : Text} :
      IsFiller g → W x w → IsFiller g' → Items W [x] (g ++ (w ++ g'))
  | cons {x : α} {xs : List α} {g w g' more : Text} :
      IsFiller g → W x w → IsFiller g' → Items W xs more →
      Items W (x :: xs) (g ++ (w ++ (g' ++ ',' :: more)))

def Listed (W : α → Text → Prop) (xs : List α) (w : Text) : Prop :=
  ∃ items, Items W xs items ∧ w = '[' :: (items ++ [']'])

theorem exists_items (hW : ∀ x, ∃ w, W x w) (xs : List α) : ∃ w, Items W xs w := by
  induction xs with
  | nil => exact ⟨[], .nil .nil⟩
  | cons x xs ih =>
      obtain ⟨w, hw⟩ := hW x
      obtain ⟨more, hmore⟩ := ih
      exact ⟨_, .cons .nil hw .nil hmore⟩

theorem exists_listed (hW : ∀ x, ∃ w, W x w) (xs : List α) : ∃ w, Listed W xs w := by
  obtain ⟨items, hitems⟩ := exists_items hW xs
  exact ⟨_, items, hitems, rfl⟩

/-- An item and the filler in front of it are read off. -/
theorem arrayItems_item (hr : Undoes r W f) {x : α} {g w s : Text}
    (hg : IsFiller g) (hw : W x w) (hs : s.head? ≠ some '"') (fuel : Nat) :
    arrayItems r (fuel + 1) (g ++ (w ++ s)) = (do
      match ← skipFiller false s with
      | ']' :: s => return ([f x], s)
      | ',' :: s =>
          let (vs, s) ← arrayItems r fuel s
          return (f x :: vs, s)
      | _ => none) := by
  have hread := hr.reads hw hs
  obtain ⟨c, t, rfl, hc, hclose⟩ := hr.starts hw
  rw [List.cons_append] at hread ⊢
  simp only [arrayItems, skipFiller_filler hg, skipFiller_cons hc, Option.bind_eq_bind,
    Option.bind_some]
  split
  · rename_i heq
    exact absurd (List.cons.inj heq).1 hclose
  · rw [hread]
    rfl

theorem arrayItems_items (hr : Undoes r W f) {xs : List α} {w : Text} (h : Items W xs w)
    {fuel : Nat} (hfuel : w.length < fuel) (rest : Text) :
    arrayItems r fuel (w ++ ']' :: rest) = some (xs.map f, rest) := by
  induction h generalizing fuel with
  | nil hg =>
      obtain ⟨fuel, rfl⟩ := Nat.exists_eq_add_one_of_ne_zero (Nat.ne_zero_of_lt hfuel)
      simp [arrayItems, skipFiller_filler hg, skipFiller_cons (c := ']') (by decide)]
  | last hg hw hg' =>
      obtain ⟨fuel, rfl⟩ := Nat.exists_eq_add_one_of_ne_zero (Nat.ne_zero_of_lt hfuel)
      rw [List.append_assoc, List.append_assoc,
        arrayItems_item hr hg hw (hg'.head?_append (by simp)), skipFiller_filler hg',
        skipFiller_cons (by decide)]
      rfl
  | cons hg hw hg' _ ih =>
      obtain ⟨fuel, rfl⟩ := Nat.exists_eq_add_one_of_ne_zero (Nat.ne_zero_of_lt hfuel)
      simp only [List.length_append, List.length_cons] at hfuel
      rw [List.append_assoc, List.append_assoc, List.append_assoc, List.cons_append,
        arrayItems_item hr hg hw (hg'.head?_append (by simp)), skipFiller_filler hg',
        skipFiller_cons (by decide)]
      -- the text behind the comma is shorter, and so is its fuel
      have hmore : arrayItems r fuel _ = _ := ih (by omega)
      simp [hmore]

theorem value_listed {depth : Nat} (hr : Undoes (value depth) W f) {xs : List α} {w : Text}
    (h : Listed W xs w) (rest : Text) :
    value (depth + 1) (w ++ rest) = some (.array (xs.map f), rest) := by
  obtain ⟨items, hitems, rfl⟩ := h
  have hfuel : items.length < (items ++ ']' :: rest).length + 1 := by
    rw [List.length_append]
    omega
  have hread := arrayItems_items hr hitems hfuel rest
  rw [List.cons_append, List.append_assoc, List.singleton_append, value, hread]
  rfl

end Arrays

/-! ## Keys and their values -/

/-- A key that needs no quotes. -/
def IsBare (k : Key) : Prop := k ≠ [] ∧ k.all isKeyChar = true

instance (k : Key) : Decidable (IsBare k) := inferInstanceAs (Decidable (_ ∧ _))

/-- The ways to write a key with its value, if `V` tells those for the
value. -/
inductive Assigned (k : Key) (V : Text → Prop) : Text → Prop
  | intro {g₁ g₂ g₃ v g₄ : Text} :
      IsGap g₁ → IsGap g₂ → IsGap g₃ → V v → IsGap g₄ →
      Assigned k V (g₁ ++ (k ++ (g₂ ++ '=' :: (g₃ ++ (v ++ g₄)))))

theorem ne_of_isKeyChar {c x : Char} (hc : isKeyChar c = true) (hx : isKeyChar x = false) :
    c ≠ x := by
  rintro rfl
  rw [hx] at hc
  cases hc

theorem isTokenStart_of_isKeyChar {c : Char} (hc : isKeyChar c = true) : IsTokenStart c := by
  have hnot : " \t\n\r#".toList.all (!isKeyChar ·) = true := by decide
  intro hmem
  have hmarks := List.all_eq_true.mp hnot c hmem
  rw [hc] at hmarks
  cases hmarks

theorem IsBare.exists_cons {k : Key} (h : IsBare k) : ∃ c t, k = c :: t ∧ isKeyChar c = true := by
  obtain ⟨c, t, rfl⟩ := List.exists_cons_of_ne_nil h.1
  exact ⟨c, t, rfl, List.all_eq_true.mp h.2 c List.mem_cons_self⟩

theorem exists_assigned {k : Key} {V : Text → Prop} (h : ∃ v, V v) : ∃ w, Assigned k V w := by
  obtain ⟨v, hv⟩ := h
  exact ⟨_, .intro isGap_nil isGap_nil isGap_nil hv isGap_nil⟩

theorem simpleKey_bare {k s : Text} (hk : IsBare k) (hs : s.head?.any isKeyChar = false) :
    simpleKey (k ++ s) = some (k, s) := by
  have hstop : s.takeWhile isKeyChar = [] ∧ s.dropWhile isKeyChar = s := by
    cases s with
    | nil => exact ⟨rfl, rfl⟩
    | cons c s =>
        have hc : isKeyChar c = false := hs
        simp [hc]
  have hall := List.all_eq_true.mp hk.2
  have htake : (k ++ s).takeWhile isKeyChar = k := by
    rw [List.takeWhile_append_of_pos hall, hstop.1, List.append_nil]
  have hdrop : (k ++ s).dropWhile isKeyChar = s := by
    rw [List.dropWhile_append_of_pos hall, hstop.2]
  obtain ⟨c, t, rfl, hc⟩ := hk.exists_cons
  rw [List.cons_append] at htake hdrop ⊢
  rw [simpleKey, htake, hdrop]
  · rfl
  · exact fun _ h => ne_of_isKeyChar (x := '"') hc (by decide) (List.cons.inj h).1
  · exact fun _ h => ne_of_isKeyChar (x := '\x27') hc (by decide) (List.cons.inj h).1

theorem skipSpace_bare {g k : Text} (hg : IsGap g) (hk : IsBare k) (s : Text) :
    skipSpace (g ++ (k ++ s)) = k ++ s := by
  obtain ⟨c, t, rfl, hc⟩ := hk.exists_cons
  rw [skipSpace_gap hg, List.cons_append]
  exact skipSpace_cons (isTokenStart_of_isKeyChar hc).isSpace _

theorem dottedKey_bare {g k g' s : Text} {c : Char} (hg : IsGap g) (hk : IsBare k)
    (hg' : IsGap g') (hc : isKeyChar c = false ∧ isSpace c = false ∧ c ≠ '.') (most : Nat) :
    dottedKey (most + 1) (g ++ (k ++ (g' ++ c :: s))) = some (([], k), c :: s) := by
  have hstop : (g' ++ c :: s).head?.any isKeyChar = false := by
    cases g' with
    | nil => exact hc.1
    | cons x g' =>
        show isKeyChar x = false
        obtain rfl | rfl := hg' x (by simp) <;> decide
  simp only [dottedKey, skipSpace_bare hg hk, simpleKey_bare hk hstop, skipSpace_gap hg',
    skipSpace_cons hc.2.1, Option.bind_eq_bind, Option.bind_some]
  split
  · rename_i heq
    exact absurd (List.cons.inj heq).1 hc.2.2
  · rfl

/-- A key without quotes is read up to the next character that is neither
a space nor a part of a key. -/
theorem key_bare {g k g' s : Text} {c : Char} (hg : IsGap g) (hk : IsBare k) (hg' : IsGap g')
    (hc : isKeyChar c = false ∧ isSpace c = false ∧ c ≠ '.') :
    key (g ++ (k ++ (g' ++ c :: s))) = some (([], k), c :: s) :=
  dottedKey_bare hg hk hg' hc _

/-- The space in front of a key may be left out. -/
theorem Assigned.trim {k : Key} (hk : IsBare k) {V : Text → Prop} {w : Text}
    (h : Assigned k V w) :
    ∃ c t, isKeyChar c = true ∧ Assigned k V (c :: t)
      ∧ ∀ rest, skipSpace (w ++ rest) = c :: t ++ rest := by
  obtain ⟨hg₁, hg₂, hg₃, hv, hg₄⟩ := h
  rename_i g₁ g₂ g₃ v g₄
  obtain ⟨c, t, hct, hc⟩ := hk.exists_cons
  refine ⟨c, t ++ (g₂ ++ '=' :: (g₃ ++ (v ++ g₄))), hc, ?_, ?_⟩
  · rw [← List.cons_append, ← hct]
    exact .intro isGap_nil hg₂ hg₃ hv hg₄
  · intro rest
    rw [List.append_assoc, List.append_assoc, skipSpace_bare hg₁ hk, hct]
    simp

/-- How a key and its value are read: the equals sign follows the key, the
value is read from behind the space there, and then only space is left
before what follows. -/
theorem Assigned.reads {α : Type} {W : α → Text → Prop} {r : Reader Value} {f : α → Value}
    (hr : Undoes r W f) {k : Key} (hk : IsBare k) {x : α} {w : Text} (h : Assigned k (W x) w)
    {rest : Text} (hrest : rest.head? ≠ some '"') :
    ∃ after behind, key (w ++ rest) = some (([], k), '=' :: after)
      ∧ r (skipSpace after) = some (f x, behind) ∧ skipSpace behind = skipSpace rest := by
  obtain ⟨hg₁, hg₂, hg₃, hv, hg₄⟩ := h
  rename_i g₁ g₂ g₃ v g₄
  refine ⟨g₃ ++ (v ++ (g₄ ++ rest)), g₄ ++ rest, ?_, ?_, skipSpace_gap hg₄ rest⟩
  · have hkey := key_bare (s := g₃ ++ (v ++ (g₄ ++ rest))) (c := '=') hg₁ hk hg₂ (by decide)
    rw [← hkey]
    simp
  · have hvalue := hr.reads hv (hg₄.isFiller.head?_append hrest)
    obtain ⟨y, u, rfl, hy, -⟩ := hr.starts hv
    rwa [skipSpace_gap hg₃, List.cons_append, skipSpace_cons hy.isSpace]

/-! ## Keys of a table -/

namespace Table

theorem get?_of_notMem {t : Table} {k : Key} (h : k ∉ t.map (·.1)) : t.get? k = none := by
  refine List.lookup_eq_none_iff.mpr fun e he => ?_
  rw [bne_iff_ne]
  rintro rfl
  exact h (List.mem_map_of_mem he)

theorem get?_of_mem {t : Table} (hkeys : (t.map (·.1)).Nodup) {k : Key} {v : Value}
    (h : (k, v) ∈ t) : t.get? k = some v := by
  induction t with
  | nil => cases h
  | cons e t ih =>
      rw [List.map_cons, List.nodup_cons] at hkeys
      rw [get?, List.lookup_cons]
      rcases List.mem_cons.mp h with rfl | hmem
      · simp
      · have hne : k ≠ e.1 := by
          rintro rfl
          exact hkeys.1 (List.mem_map.mpr ⟨_, hmem, rfl⟩)
        rw [beq_eq_false_iff_ne.mpr hne]
        exact ih hkeys.2 hmem

theorem assign_of_notMem {t : Table} {k : Key} (h : k ∉ t.map (·.1)) (v : Value) :
    t.assign [] k v = some (t ++ [(k, v)]) := by
  rw [assign, List.isEmpty_nil, if_pos rfl, insertNew, get?_of_notMem h]
  rfl

theorem notMem_of_nodup {t es : Table} {e : Key × Value}
    (h : ((t ++ e :: es).map (·.1)).Nodup) : e.1 ∉ t.map (·.1) := by
  rw [List.map_append, List.map_cons] at h
  intro hmem
  exact (List.nodup_append.mp h).2.2 _ hmem _ List.mem_cons_self rfl

theorem ofAssignments_map {es : Table} (h : (es.map (·.1)).Nodup) :
    ofAssignments (es.map fun e => ([], e.1, e.2)) = some es := by
  have hfrom : ∀ t : Table, ((t ++ es).map (·.1)).Nodup →
      (es.map fun e => (([] : List Key), e.1, e.2)).foldlM
        (fun (t : Table) e => t.assign e.1 e.2.1 e.2.2) t = some (t ++ es) := by
    clear h
    induction es with
    | nil => simp
    | cons e es ih =>
        intro t h
        have hmore := ih (t ++ [e]) (by rwa [List.append_assoc, List.singleton_append])
        simp only [List.map_cons, List.foldlM_cons, assign_of_notMem (notMem_of_nodup h),
          Option.bind_eq_bind, Option.bind_some]
        rw [hmore, List.append_assoc, List.singleton_append]
  exact hfrom [] h

end Table

/-! ## Tables in braces -/

/-- The ways to write strings with their keys, divided by commas. -/
inductive Fields : List (Key × Text) → Text → Prop
  | last {k : Key} {s w : Text} : Assigned k (Quoted s) w → Fields [(k, s)] w
  | cons {k : Key} {s w : Text} {es : List (Key × Text)} {more : Text} :
      Assigned k (Quoted s) w → Fields es more → Fields ((k, s) :: es) (w ++ ',' :: more)

/-- The ways to write a table of strings in braces. -/
def Braced (es : List (Key × Text)) (w : Text) : Prop :=
  ∃ body, Fields es body ∧ w = '\x7b' :: (body ++ ['\x7d'])

def Table.ofStrings (es : List (Key × Text)) : Table := es.map fun e => (e.1, .string e.2)

theorem exists_fields {es : List (Key × Text)} (h : es ≠ []) : ∃ w, Fields es w := by
  induction es with
  | nil => exact absurd rfl h
  | cons e es ih =>
      obtain ⟨w, hw⟩ := exists_assigned (k := e.1) (exists_quoted e.2)
      by_cases hes : es = []
      · subst hes
        exact ⟨w, .last hw⟩
      · obtain ⟨more, hmore⟩ := ih hes
        exact ⟨_, .cons hw hmore⟩

theorem Fields.trim {es : List (Key × Text)} {w : Text} (h : Fields es w)
    (hbare : ∀ e ∈ es, IsBare e.1) :
    ∃ c t, isKeyChar c = true ∧ Fields es (c :: t)
      ∧ ∀ rest, skipSpace (w ++ rest) = c :: t ++ rest := by
  cases h with
  | last hw =>
      obtain ⟨c, t, hc, htrim, hskip⟩ := hw.trim (hbare _ List.mem_cons_self)
      exact ⟨c, t, hc, .last htrim, hskip⟩
  | cons hw hmore =>
      obtain ⟨c, t, hc, htrim, hskip⟩ := hw.trim (hbare _ List.mem_cons_self)
      refine ⟨c, _, hc, .cons htrim hmore, ?_⟩
      intro rest
      rw [List.append_assoc, hskip]
      simp

theorem inlineEntries_fields {es : List (Key × Text)} {w : Text} (h : Fields es w)
    (hbare : ∀ e ∈ es, IsBare e.1) (depth : Nat) {fuel : Nat} (hfuel : w.length < fuel)
    (rest : Text) :
    inlineEntries (value depth) fuel (w ++ '\x7d' :: rest)
      = some ((Table.ofStrings es).map fun e => ([], e.1, e.2), rest) := by
  induction h generalizing fuel with
  | last hw =>
      obtain ⟨fuel, rfl⟩ := Nat.exists_eq_add_one_of_ne_zero (Nat.ne_zero_of_lt hfuel)
      have hk := hbare _ List.mem_cons_self
      have hrest : ('\x7d' :: rest).head? ≠ some '"' := by simp
      obtain ⟨after, behind, hkey, hvalue, hbehind⟩ := hw.reads (undoes_quoted depth) hk hrest
      rw [skipSpace_cons (by decide)] at hbehind
      simp [inlineEntries, hkey, char, hvalue, hbehind, Table.ofStrings]
  | @cons k s w es more hw _ ih =>
      obtain ⟨fuel, rfl⟩ := Nat.exists_eq_add_one_of_ne_zero (Nat.ne_zero_of_lt hfuel)
      rw [List.length_append, List.length_cons] at hfuel
      have hk := hbare _ List.mem_cons_self
      have hrest : (',' :: (more ++ '\x7d' :: rest)).head? ≠ some '"' := by simp
      obtain ⟨after, behind, hkey, hvalue, hbehind⟩ := hw.reads (undoes_quoted depth) hk hrest
      rw [skipSpace_cons (by decide)] at hbehind
      have hmore : inlineEntries (value depth) fuel _ = _ :=
        ih (fun e he => hbare e (List.mem_cons_of_mem _ he)) (by omega)
      simp [inlineEntries, hkey, char, hvalue, hbehind, hmore, Table.ofStrings]

theorem value_braced {es : List (Key × Text)} {w : Text} (h : Braced es w)
    (hbare : ∀ e ∈ es, IsBare e.1) (hkeys : (es.map (·.1)).Nodup) (depth : Nat) (rest : Text) :
    value (depth + 1) (w ++ rest) = some (.table .inline (Table.ofStrings es), rest) := by
  obtain ⟨body, hbody, rfl⟩ := h
  obtain ⟨c, t, hc, htrim, hskip⟩ := hbody.trim hbare
  have hfuel : (c :: t).length < (c :: t ++ '\x7d' :: rest).length + 1 := by
    rw [List.length_append]
    omega
  have hread := inlineEntries_fields htrim hbare depth hfuel rest
  have htable : (Table.ofStrings es).map (·.1) = es.map (·.1) := by simp [Table.ofStrings]
  rw [List.cons_append, List.append_assoc, List.singleton_append, value, inlineTable, hskip]
  rw [List.cons_append] at hread ⊢
  split
  · rename_i heq
    exact absurd (List.cons.inj heq).1 (ne_of_isKeyChar hc (by decide))
  · simp only [hread, Table.ofAssignments_map (htable ▸ hkeys), Option.bind_eq_bind,
      Option.bind_some]
    rfl

end Upkeep.Toml
