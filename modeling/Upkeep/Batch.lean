import Upkeep.Report

/-!
# Running a rule set over files

One file is read, revised and, if its text changed, replaced. A batch
does this with a list of paths in order, each on the disk that the one
before left behind, and notes every outcome; no failure ends it.
-/

namespace Upkeep

/-- Revise the text of one file. A dry run says what a real one would say
and leaves the disk alone. -/
def reviseFile (set : RuleSet) (mode : WriteMode) (d : Disk) (p : Path) :
    Except Failure FileStatus × Disk :=
  match d.loadText p with
  | .error failure => (.error failure, d)
  | .ok t =>
      match set.revise t with
      | .error cause => (.error (.unsettled cause), d)
      | .ok revision =>
          if revision.changed then
            match mode with
            | .dryRun => (.ok (.updated revision.totalHits), d)
            | .write =>
                match d.replaceText p revision.text with
                | (.error cause, d') => (.error (.write p cause), d')
                | (.ok (), d') => (.ok (.updated revision.totalHits), d')
          else (.ok .unchanged, d)

/-- Revise files in order, adding to a report. -/
def runFrom (set : RuleSet) (mode : WriteMode) : Report → Disk → List Path → Report × Disk
  | report, d, [] => (report, d)
  | report, d, p :: paths =>
      let done := reviseFile set mode d p
      runFrom set mode (report.record p (.ofResult done.1)) done.2 paths

/-- Revise files in order and report on each. -/
def runBatch (set : RuleSet) (mode : WriteMode) (d : Disk) (paths : List Path) : Report × Disk :=
  runFrom set mode (.empty mode) d paths

end Upkeep
