import Upkeep.Failure

/-!
# Reports of a batch

A batch notes one outcome per file, in the order in which the files were
processed, and counts the outcomes of each kind as it goes. The rendered
report has a line per file and then a summary.
-/

namespace Upkeep

/-- Whether revised files are written back. -/
inductive WriteMode where
  | write
  /-- Only report what would change. -/
  | dryRun
  deriving Repr, DecidableEq

/-- The mode chosen by the dry-run flag. -/
def WriteMode.ofDryRun (dryRun : Bool) : WriteMode := if dryRun then .dryRun else .write

/-- What became of a file that could be processed. -/
inductive FileStatus where
  | updated (hits : Nat)
  | unchanged
  deriving Repr, DecidableEq

inductive OutcomeKind where
  | updated
  | unchanged
  | notFound
  | error
  deriving Repr, DecidableEq

inductive Outcome where
  | updated
  | unchanged
  | notFound
  | error (cause : Text)
  deriving Repr, DecidableEq

namespace Outcome

def kind : Outcome → OutcomeKind
  | updated => .updated
  | unchanged => .unchanged
  | notFound => .notFound
  | error _ => .error

def ofResult : Except Failure FileStatus → Outcome
  | .ok (.updated _) => updated
  | .ok .unchanged => unchanged
  | .error (.notFound _) => notFound
  | .error failure => error failure.message

def line (name : Text) : Outcome → Text
  | updated => "✓ Updated: ".toList ++ name
  | unchanged => "  No change: ".toList ++ name
  | notFound => "⚠ Not found: ".toList ++ name
  | error cause => "✗ Error: ".toList ++ name ++ " - ".toList ++ cause

end Outcome

/-- A processed file. -/
structure FileReport where
  path : Path
  outcome : Outcome
  deriving Repr, DecidableEq

/-- The outcomes of a batch, and how many there are of each kind. -/
structure Report where
  files : List FileReport
  updated : Nat
  unchanged : Nat
  notFound : Nat
  errors : Nat
  mode : WriteMode
  deriving Repr, DecidableEq

namespace Report

def empty (mode : WriteMode) : Report := ⟨[], 0, 0, 0, 0, mode⟩

/-- Count one more outcome of a kind. -/
def tally (r : Report) : OutcomeKind → Report
  | .updated => { r with updated := r.updated + 1 }
  | .unchanged => { r with unchanged := r.unchanged + 1 }
  | .notFound => { r with notFound := r.notFound + 1 }
  | .error => { r with errors := r.errors + 1 }

/-- Note the outcome of one more file. -/
def record (r : Report) (path : Path) (outcome : Outcome) : Report :=
  { r.tally outcome.kind with files := r.files ++ [⟨path, outcome⟩] }

def count (r : Report) : OutcomeKind → Nat
  | .updated => r.updated
  | .unchanged => r.unchanged
  | .notFound => r.notFound
  | .error => r.errors

def total (r : Report) : Nat := r.files.length

/-- A line of the summary. -/
def countLine (label : String) (n : Nat) : Text :=
  label.toList ++ ": ".toList ++ Nat.toDigits 10 n ++ " files".toList

def heading : WriteMode → Text
  | .write => "=== Summary ===".toList
  | .dryRun => "=== Summary (dry run) ===".toList

/-- The lines of the report: one per file, then the summary. -/
def lines (r : Report) : List Text :=
  r.files.map (fun f => f.outcome.line f.path.displayName)
    ++ [[],
        heading r.mode,
        countLine "Updated" r.updated,
        countLine "Unchanged" r.unchanged,
        countLine "Not found" r.notFound,
        countLine "Errors" r.errors,
        countLine "Total" r.total]

def render (r : Report) : Text := Text.ofLines r.lines

end Report

end Upkeep
