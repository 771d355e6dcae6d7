import Upkeep.Imports
import Upkeep.Proofs.CarriageReturn
import Upkeep.Proofs.Line

/-!
# Imports and layout

Which imports a text writes out does not depend on how it is laid out.

Everything follows from two facts. An import is read off a single line,
and blanks around the line do not matter (`importOf?_pad`): they are
trimmed off, and no interpolation is opened among them. And the lines may
be taken to be the stretches between line feeds (`literalImports_eq`):
what `Text.lines` does beyond cutting is to drop a carriage return, which
is a blank, and an empty stretch, which has no import.

So a line feed divides the imports of a text into those before it and
those behind it, and where a line starts or ends, blanks can be put in.
A carriage return before a line feed is such a blank.
-/

namespace Upkeep

/-! ## One line -/

theorem not_mem_mark_of_isBlank {c : Char} (h : Text.isBlank c = true) :
    c ∉ interpolationMark := by
  intro hmem
  have hbraces : interpolationMark.all (!Text.isBlank ·) = true := by decide
  have hbrace := List.all_eq_true.mp hbraces c hmem
  rw [h] at hbrace
  cases hbrace

theorem mark_ne_nil : interpolationMark ≠ [] := by decide

/-- **Blanks around a line** do not matter. -/
theorem importOf?_pad {u v : Text} (hu : ∀ c ∈ u, Text.isBlank c = true)
    (hv : ∀ c ∈ v, Text.isBlank c = true) (line : Text) :
    importOf? (u ++ line ++ v) = importOf? line := by
  have hmark : Text.contains interpolationMark (u ++ line ++ v)
      = Text.contains interpolationMark line := by
    rw [Bool.eq_iff_iff, Text.contains_iff, Text.contains_iff,
      Text.infix_append_iff_left mark_ne_nil fun c hc => not_mem_mark_of_isBlank (hv c hc),
      Text.infix_append_iff_right mark_ne_nil fun c hc => not_mem_mark_of_isBlank (hu c hc)]
  rw [importOf?, hmark, Text.trim_pad hu hv, importOf?]

theorem importOf?_append_blank {v : Text} (hv : ∀ c ∈ v, Text.isBlank c = true) (line : Text) :
    importOf? (line ++ v) = importOf? line :=
  importOf?_pad (u := []) (fun _ h => absurd h List.not_mem_nil) hv line

theorem importOf?_dropReturn (line : Text) : importOf? (Text.dropReturn line) = importOf? line := by
  unfold Text.dropReturn
  split
  · rename_i hlast
    have hreturn : ∀ c ∈ ['\r'], Text.isBlank c = true :=
      List.forall_mem_singleton.mpr (by decide)
    rw [← importOf?_append_blank hreturn, List.dropLast_append_getLast? _ hlast]
  · rfl

/-! ## Whole texts -/

theorem filterMap_ofStretches (ss : List Text) :
    (Text.ofStretches ss).filterMap importOf? = ss.filterMap importOf? := by
  have hempty : importOf? [] = none := by decide
  fun_induction Text.ofStretches ss with
  | case1 => rfl
  | case2 last h =>
      rw [List.isEmpty_iff.mp h, List.filterMap_cons_none hempty]
  | case3 last h => rfl
  | case4 t rest hrest ih =>
      rw [List.filterMap_cons, List.filterMap_cons, importOf?_dropReturn, ih]

/-- The imports of a text are those of its stretches between line feeds. -/
theorem literalImports_eq (t : Text) : literalImports t = (Text.cut '\n' t).filterMap importOf? :=
  filterMap_ofStretches (Text.cut '\n' t)

theorem literalImports_append_cons (a b : Text) :
    literalImports (a ++ '\n' :: b) = literalImports a ++ literalImports b := by
  simp only [literalImports_eq, Text.cut_append_cons, List.filterMap_append]

section

variable {w : Text} (hw : ∀ c ∈ w, Text.isBlank c = true ∧ c ≠ '\n')

include hw

theorem cut_blank : Text.cut '\n' w = [w] :=
  Text.cut_of_not_mem fun h => (hw '\n' h).2 rfl

theorem literalImports_append_blank (a : Text) : literalImports (a ++ w) = literalImports a := by
  obtain ⟨front, x, ha⟩ :=
    (List.eq_nil_or_concat' (Text.cut '\n' a)).resolve_left (Text.cut_ne_nil '\n' a)
  have hlast : importOf? (x ++ w) = importOf? x := importOf?_append_blank (fun c hc => (hw c hc).1) x
  rw [literalImports_eq, literalImports_eq, Text.cut_append ha (cut_blank hw), ha,
    List.filterMap_append, List.filterMap_append, List.filterMap_cons, List.filterMap_cons, hlast]

theorem literalImports_blank_append (b : Text) : literalImports (w ++ b) = literalImports b := by
  obtain ⟨x, back, hb⟩ := List.exists_cons_of_ne_nil (Text.cut_ne_nil '\n' b)
  have hfront : Text.cut '\n' w = [] ++ [w] := cut_blank hw
  have hfirst : importOf? (w ++ x ++ []) = importOf? x :=
    importOf?_pad (fun c hc => (hw c hc).1) (fun _ h => absurd h List.not_mem_nil) x
  rw [List.append_nil] at hfirst
  rw [literalImports_eq, literalImports_eq, Text.cut_append hfront hb, hb, List.nil_append,
    List.filterMap_cons, List.filterMap_cons, hfirst]

end

theorem isBlank_return : ∀ c ∈ ['\r'], Text.isBlank c = true ∧ c ≠ '\n' :=
  List.forall_mem_singleton.mpr (by decide)

/-- The text `a` in front is what makes the induction go: a line that is
begun before `t` may be ended in it. -/
theorem literalImports_append_crlf (a t : Text) :
    literalImports (a ++ Text.crlf t) = literalImports (a ++ t) := by
  induction t generalizing a with
  | nil => rfl
  | cons c t ih =>
      by_cases hc : c = '\n'
      · subst hc
        have hsplit : a ++ Text.crlf ('\n' :: t) = (a ++ ['\r']) ++ '\n' :: Text.crlf t := by simp
        rw [hsplit, literalImports_append_cons, literalImports_append_cons,
          literalImports_append_blank isBlank_return]
        exact congrArg (literalImports a ++ ·) (ih [])
      · rw [Text.crlf_cons hc, List.append_cons a c t, List.append_cons a c (Text.crlf t)]
        exact ih (a ++ [c])

/-! ## Where blanks can be put in -/

def Text.LineStartsBehind (a : Text) : Prop := a = [] ∨ a.getLast? = some '\n'

/-- A line ends before the text `b`, in a line feed with or without a
carriage return, or because nothing follows. -/
def Text.LineEndsBefore (b : Text) : Prop :=
  b = [] ∨ b.head? = some '\n' ∨ ['\r', '\n'] <+: b

theorem literalImports_indent {a w : Text} (hw : ∀ c ∈ w, Text.isBlank c = true ∧ c ≠ '\n')
    (ha : Text.LineStartsBehind a) (b : Text) :
    literalImports (a ++ w ++ b) = literalImports (a ++ b) := by
  rcases ha with rfl | hlast
  · exact literalImports_blank_append hw b
  · rw [← List.dropLast_append_getLast? _ hlast]
    simp only [List.append_assoc, List.cons_append, List.nil_append, literalImports_append_cons,
      literalImports_blank_append hw]

theorem literalImports_trail {w b : Text} (hw : ∀ c ∈ w, Text.isBlank c = true ∧ c ≠ '\n')
    (hb : Text.LineEndsBefore b) (a : Text) :
    literalImports (a ++ w ++ b) = literalImports (a ++ b) := by
  rcases hb with rfl | hhead | ⟨rest, rfl⟩
  · rw [List.append_nil, List.append_nil, literalImports_append_blank hw]
  · obtain ⟨rest, rfl⟩ : ∃ rest, b = '\n' :: rest := List.head?_eq_some_iff.mp hhead
    rw [literalImports_append_cons, literalImports_append_cons, literalImports_append_blank hw]
  · -- the carriage return is one more blank of the line
    have hsplit : ∀ x : Text, x ++ (['\r', '\n'] ++ rest) = (x ++ ['\r']) ++ '\n' :: rest := by
      intro x
      simp
    rw [hsplit, hsplit, literalImports_append_cons, literalImports_append_cons,
      literalImports_append_blank isBlank_return, literalImports_append_blank isBlank_return,
      literalImports_append_blank hw]

/-- **Imports do not depend on layout.** A line feed divides them, it does
not matter whether carriage returns stand before the line feeds, and any
blanks can be put in where a line starts or ends. -/
theorem literalImports_layout :
    (∀ a b : Text, literalImports (a ++ '\n' :: b) = literalImports a ++ literalImports b)
      ∧ (∀ t : Text, literalImports (Text.crlf t) = literalImports t)
      ∧ ∀ a w b : Text, (∀ c ∈ w, Text.isBlank c = true ∧ c ≠ '\n') →
        Text.LineStartsBehind a ∨ Text.LineEndsBefore b →
          literalImports (a ++ w ++ b) = literalImports (a ++ b) := by
  refine ⟨literalImports_append_cons, literalImports_append_crlf [], ?_⟩
  rintro a w b hw (ha | hb)
  · exact literalImports_indent hw ha b
  · exact literalImports_trail hw hb a

/-- Blanks before a line that ends in a carriage return and a line feed,
and others before that end. -/
theorem literalImports_layout_spaced :
    literalImports ("x\n".toList ++ "\u3000\t".toList ++ "import a.B\r\nimport c".toList)
        = ["a.B".toList, "c".toList]
      ∧ literalImports ("x\nimport a.B".toList ++ "\u2003".toList ++ "\r\nimport c".toList)
        = ["a.B".toList, "c".toList] := by
  have hplain : literalImports "x\nimport a.B\r\nimport c".toList
      = ["a.B".toList, "c".toList] := by decide +kernel
  have hwide : ∀ c ∈ "\u3000\t".toList, Text.isBlank c = true ∧ c ≠ '\n' :=
    List.forall_mem_cons.mpr ⟨by decide, List.forall_mem_singleton.mpr (by decide)⟩
  have hspace : ∀ c ∈ "\u2003".toList, Text.isBlank c = true ∧ c ≠ '\n' :=
    List.forall_mem_singleton.mpr (by decide)
  have hindent := literalImports_layout.2.2 "x\n".toList "\u3000\t".toList
    "import a.B\r\nimport c".toList hwide (.inl (.inr rfl))
  have htrail := literalImports_layout.2.2 "x\nimport a.B".toList "\u2003".toList
    "\r\nimport c".toList hspace (.inr (.inr (.inr ⟨"import c".toList, rfl⟩)))
  exact ⟨hindent.trans hplain, htrail.trans hplain⟩

end Upkeep
