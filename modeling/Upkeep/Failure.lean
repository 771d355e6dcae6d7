import Upkeep.Disk.File
import Upkeep.Rule.Basic

/-!
# Failures of a single file

What can go wrong with one file. None of it ends a batch: the batch notes
the failure and goes on.
-/

namespace Upkeep

/-- Why a file was not processed. -/
inductive Failure where
  | notFound (path : Path)
  | read (path : Path) (cause : ReadFault)
  | write (path : Path) (cause : WriteFault)
  /-- The revised text is matched again. -/
  | unsettled (cause : Unsettled)
  deriving Repr, DecidableEq

namespace Failure

def message : Failure → Text
  | notFound path => "not found: ".toList ++ path
  | read path cause => "failed to read ".toList ++ path ++ ": ".toList ++ cause.message.toList
  | write path cause => "failed to write ".toList ++ path ++ ": ".toList ++ cause.message
  | unsettled cause => cause.message.toList

/-- The failure of reading a path: a path that leads nowhere is told
apart from all other faults. -/
def ofRead (path : Path) : ReadFault → Failure
  | .disk .notFound => notFound path
  | cause => read path cause

end Failure

/-- The text of the file that a path leads to. -/
def Disk.loadText (d : Disk) (p : Path) : Except Failure Text :=
  (d.readText p).mapError (Failure.ofRead p)

end Upkeep
