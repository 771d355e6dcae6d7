import Upkeep.Proofs.Fatal
import Upkeep.Proofs.Line

/-!
# Accounts of a report

A report keeps its files, its counters and, once it is printed, its lines
apart. Nothing but `Report.record` changes any of them, and it changes
them together: that the counters are the numbers of the files noted is
kept by every call (`Balanced.record`), hence by any number of calls
(`Balanced.recordAll`), and a batch is such a sequence of calls
(`runFrom_eq_recordAll`).

The printed lines can be counted again. What a line starts with tells the
outcome of its file, since no two of these marks start alike
(`FileReport.mark_prefix_shown`). So a reader of the output who counts the lines with
a mark finds the number that the summary gives (`Report.Prints`). This
takes that every file has one line: a name or a cause with a line feed in
it would show as several.
-/

namespace Upkeep

/-! ## Counters -/

namespace Report

/-- The counters are the numbers of the outcomes noted. -/
def Balanced (r : Report) : Prop := ∀ kind, r.count kind = countKind r.files kind

theorem balanced_empty (mode : WriteMode) : (empty mode).Balanced := by
  intro kind
  cases kind <;> rfl

theorem Balanced.record {r : Report} (h : r.Balanced) (p : Path) (outcome : Outcome) :
    (r.record p outcome).Balanced := by
  intro kind
  rw [count_record, h kind, files_record, countKind, countKind, List.map_append, List.count_append]
  by_cases hkind : outcome.kind = kind
  · simp [hkind]
  · simp [hkind]

theorem Balanced.recordAll {r : Report} (h : r.Balanced) (files : List FileReport) :
    (r.recordAll files).Balanced := by
  induction files generalizing r with
  | nil => exact h
  | cons f files ih => exact ih (h.record f.path f.outcome)

end Report

theorem sum_countKind (files : List FileReport) :
    countKind files .updated + countKind files .unchanged + countKind files .notFound
      + countKind files .error = files.length := by
  induction files with
  | nil => rfl
  | cons f files ih =>
      simp only [countKind, List.map_cons, List.count_cons, List.length_cons] at ih ⊢
      cases f.outcome.kind <;> simp <;> omega

theorem Report.Balanced.sum_eq_total {r : Report} (h : r.Balanced) :
    r.updated + r.unchanged + r.notFound + r.errors = r.total := by
  have hsum := sum_countKind r.files
  rw [← h, ← h, ← h, ← h] at hsum
  exact hsum

/-! ## Printed lines -/

namespace OutcomeKind

theorem mark_ne_nil (kind : OutcomeKind) : kind.mark ≠ [] := by
  cases kind <;> decide

theorem eq_of_head?_mark {kind kind' : OutcomeKind} (h : kind.mark.head? = kind'.mark.head?) :
    kind = kind' := by
  revert h
  cases kind <;> cases kind' <;> decide

end OutcomeKind

namespace FileReport

/-- **The mark tells the outcome.** -/
theorem mark_prefix_shown (f : FileReport) (kind : OutcomeKind) :
    kind.mark.isPrefixOf f.shown = (f.outcome.kind == kind) := by
  rw [Bool.eq_iff_iff, List.isPrefixOf_iff_prefix, beq_iff_eq, shown, List.append_assoc]
  constructor
  · intro hfront
    obtain ⟨c, rest, hmark⟩ := List.exists_cons_of_ne_nil kind.mark_ne_nil
    obtain ⟨c', rest', hmark'⟩ := List.exists_cons_of_ne_nil f.outcome.kind.mark_ne_nil
    rw [hmark, hmark', List.cons_append, List.cons_prefix_cons] at hfront
    refine OutcomeKind.eq_of_head?_mark ?_
    rw [hmark, hmark', hfront.1]
    rfl
  · rintro rfl
    exact List.prefix_append _ _

def IsOneLine (f : FileReport) : Prop :=
  '\n' ∉ f.path.displayName ∧ ∀ cause, f.outcome = .error cause → '\n' ∉ cause

theorem IsOneLine.not_mem_shown {f : FileReport} (h : f.IsOneLine) : '\n' ∉ f.shown := by
  have hmark : ∀ kind : OutcomeKind, '\n' ∉ kind.mark := by
    intro kind
    cases kind <;> decide
  have hdetail : '\n' ∉ f.outcome.detail := by
    cases houtcome : f.outcome with
    | error cause =>
        rw [Outcome.detail, List.mem_append]
        exact not_or.mpr ⟨by decide, h.2 cause houtcome⟩
    | _ => exact List.not_mem_nil
  rw [shown, List.mem_append, List.mem_append]
  exact not_or.mpr ⟨not_or.mpr ⟨hmark _, h.1⟩, hdetail⟩

end FileReport

namespace Report

theorem not_mem_of_mem_summaryLines (mode : WriteMode) (counted : OutcomeKind → Nat)
    (total : Nat) : ∀ l ∈ summaryLines mode counted total, '\n' ∉ l := by
  have hline : ∀ label : String, '\n' ∉ label.toList → ∀ n : Nat,
      '\n' ∉ label.toList ++ ": ".toList ++ Nat.toDigits 10 n ++ " files".toList := by
    intro label hlabel n
    have hdigits : '\n' ∉ Nat.toDigits 10 n := by
      intro hmem
      exact absurd (Nat.isDigit_of_mem_toDigits (by decide) (by decide) hmem) (by decide)
    simp only [List.mem_append, not_or]
    exact ⟨⟨⟨hlabel, by decide⟩, hdigits⟩, by decide⟩
  intro l hl
  simp only [summaryLines, List.mem_cons, List.not_mem_nil, or_false] at hl
  rcases hl with rfl | rfl | rfl | rfl | rfl | rfl | rfl
  · exact List.not_mem_nil
  · cases mode <;> decide
  all_goals exact hline _ (by decide) _

theorem not_mem_of_mem_lines {r : Report} (h : ∀ f ∈ r.files, f.IsOneLine) :
    ∀ l ∈ r.lines, '\n' ∉ l := by
  intro l hl
  rw [lines_eq] at hl
  rcases List.mem_append.mp hl with hfile | hsummary
  · obtain ⟨f, hf, rfl⟩ := List.mem_map.mp hfile
    exact (h f hf).not_mem_shown
  · exact not_mem_of_mem_summaryLines _ _ _ l hsummary

def countMarked (ls : List Text) (kind : OutcomeKind) : Nat := ls.countP kind.mark.isPrefixOf

theorem countMarked_shown (files : List FileReport) (kind : OutcomeKind) :
    countMarked (files.map FileReport.shown) kind = countKind files kind := by
  simp only [countMarked, countKind, List.countP_map, List.count_eq_countP]
  refine List.countP_congr fun f _ => ?_
  simp [FileReport.mark_prefix_shown]

/-- The report is printed as the lines `ls`. The numbers of the summary
are those of the lines above it. -/
structure Prints (r : Report) (ls : List Text) : Prop where
  exact : Text.cut '\n' r.render = ls ++ [[]]
  length : ls.length = r.total + 7
  file : ∀ (i : Nat) (f : FileReport), r.files[i]? = some f →
    ls[i]? = some (f.outcome.kind.mark ++ f.path.displayName ++ f.outcome.detail)
  summary : ∃ shown, shown = countMarked (ls.take r.total)
    ∧ ls.drop r.total = summaryLines r.mode shown
      (shown .updated + shown .unchanged + shown .notFound + shown .error)

theorem Balanced.prints {r : Report} (hr : r.Balanced) (h : ∀ f ∈ r.files, f.IsOneLine) :
    r.Prints r.lines := by
  have hlength : (r.files.map FileReport.shown).length = r.total := List.length_map _
  refine ⟨Text.cut_ofLines (not_mem_of_mem_lines h), ?_, fun i f hf => ?_, _, rfl, ?_⟩
  · rw [lines_eq, List.length_append, hlength]
    rfl
  · obtain ⟨hi, -⟩ := List.getElem?_eq_some_iff.mp hf
    rw [lines_eq, List.getElem?_append_left (hlength ▸ hi), List.getElem?_map, hf]
    rfl
  · have hshown : countMarked (r.lines.take r.total) = r.count := by
      funext kind
      rw [lines_eq, List.take_left' hlength, countMarked_shown, hr kind]
    have hsum : r.count .updated + r.count .unchanged + r.count .notFound + r.count .error
        = r.total := hr.sum_eq_total
    rw [hshown, hsum, lines_eq, List.drop_left' hlength]

/-- **A report accounts for its files.** Whatever was noted, each counter
is the number of files with an outcome of its kind, and together they are
the number of all files. A batch notes each of its paths once, in order.
Printed, the report has a line for each file and seven more, and the
summary gives the numbers that can be counted above it. -/
theorem recordAll_accounts (mode : WriteMode) (files : List FileReport) :
    let r := (empty mode).recordAll files
    r.files = files
      ∧ (∀ kind, r.count kind = countKind files kind)
      ∧ r.updated + r.unchanged + r.notFound + r.errors = r.total
      ∧ (∀ set d paths, ∃ noted, (runBatch set mode d paths).1 = (empty mode).recordAll noted
          ∧ noted.map (·.path) = paths)
      ∧ ((∀ f ∈ files, f.IsOneLine) → ∃ ls, r.Prints ls) := by
  intro r
  have hfiles : r.files = files := files_recordAll (empty mode) files
  have hbalanced : r.Balanced := (balanced_empty mode).recordAll files
  have hcount : ∀ kind, r.count kind = countKind files kind := by
    intro kind
    rw [hbalanced kind, hfiles]
  refine ⟨hfiles, hcount, ?_, fun set d paths => ?_, fun hone => ?_⟩
  · exact hbalanced.sum_eq_total
  · exact ⟨outcomes set mode d paths, runFrom_eq_recordAll set mode (empty mode) d paths,
      map_path_outcomes set mode d paths⟩
  · rw [← hfiles] at hone
    exact ⟨r.lines, hbalanced.prints hone⟩

/-- Files of three kinds. One of them has a name that looks like a mark,
and one a path without a name. -/
def mixed : List FileReport :=
  [⟨"t/✓ Updated: x".toList, .unchanged⟩, ⟨"t/..".toList, .error "Is a directory".toList⟩,
   ⟨"a.kt".toList, .updated⟩, ⟨"b.kt".toList, .updated⟩]

theorem recordAll_accounts_mixed :
    (∀ f ∈ mixed, f.IsOneLine)
      ∧ ∃ ls, ((empty .dryRun).recordAll mixed).Prints ls ∧ ls.length = 11
        ∧ ls[1]? = some "✗ Error: t/.. - Is a directory".toList := by
  have hone : ∀ f ∈ mixed, f.IsOneLine := by
    simp only [mixed, List.forall_mem_cons, FileReport.IsOneLine]
    refine ⟨⟨by decide, ?_⟩, ⟨by decide, ?_⟩, ⟨by decide, ?_⟩, ⟨by decide, ?_⟩, ?_⟩
    · rintro cause ⟨⟩
    · rintro cause ⟨⟩
      decide
    · rintro cause ⟨⟩
    · rintro cause ⟨⟩
    · exact fun f hf => absurd hf List.not_mem_nil
  obtain ⟨ls, hprints⟩ := (recordAll_accounts .dryRun mixed).2.2.2.2 hone
  have hfile := hprints.file 1 ⟨"t/..".toList, .error "Is a directory".toList⟩ rfl
  have hline : OutcomeKind.error.mark ++ Path.displayName "t/..".toList
      ++ " - Is a directory".toList = "✗ Error: t/.. - Is a directory".toList := by
    decide
  exact ⟨hone, ls, hprints, hprints.length, hline ▸ hfile⟩

end Report

end Upkeep
