import Upkeep.Disk.Walk

/-!
# Plain changes to a disk

Making directories, files and links, removing entries, changing modes,
and the whole content of the working directory as one list. The program
does none of this, and nothing is proved about it: these operations are
there to set up a disk for a trial and to show what became of it.
-/

namespace Upkeep

namespace Disk

/-- Make one directory, unless it is there. -/
def makeDir (d : Disk) (p : Path) : Except DiskFault Disk := do
  let loc ← d.locate p
  match d.node? loc with
  | none => .ok (d.put loc (.dir Node.dirMode))
  | some (.dir _) => .ok d
  | some _ => .error .notDirectory

/-- Make the directory a path names and all those above it. -/
def makeDirs (d : Disk) (p : Path) : Except DiskFault Disk :=
  ((List.range p.names.length).map fun k => Path.ofNames p.isAbsolute (p.names.take (k + 1))).foldlM
    makeDir d

def writeFile (d : Disk) (p : Path) (bytes : List UInt8) : Except DiskFault Disk := do
  let d ← d.makeDirs p.parent
  let loc ← d.locate p
  match d.node? loc with
  | none => .ok (d.put loc (.file Node.fileMode bytes))
  | some (.file mode _) => .ok (d.put loc (.file mode bytes))
  | some _ => .error .isDirectory

def makeLink (d : Disk) (p target : Path) : Except DiskFault Disk := do
  let d ← d.makeDirs p.parent
  let loc ← d.entry p
  .ok (d.put loc (.link target))

/-- Remove the entry at a location with everything below it. -/
def erase (d : Disk) (loc : Location) : Disk :=
  { d with
    nodes := d.nodes.filter fun e => !loc.isPrefixOf e.1
    distinct := d.distinct.sublist ((List.filter_sublist).map _) }

/-- Remove the entry a path names, with everything below it. -/
def remove (d : Disk) (p : Path) : Except DiskFault Disk := do
  let loc ← d.entry p
  .ok (d.erase loc)

def setMode (d : Disk) (p : Path) (mode : Nat) : Except DiskFault Disk := do
  match ← d.resolve p with
  | (loc, .file _ bytes) => .ok (d.put loc (.file mode bytes))
  | (loc, .dir _) => .ok (d.put loc (.dir mode))
  | (_, .link _) => .error .linkLoop

def mode (d : Disk) (p : Path) : Except DiskFault Nat := do
  match ← d.resolve p with
  | (_, .file mode _) | (_, .dir mode) => .ok mode
  | (_, .link _) => .error .linkLoop

/-- The order in which a disk is shown: a directory before its content,
and the names of each directory in order. -/
def locationLe : Location → Location → Bool
  | [], _ => true
  | _ :: _, [] => false
  | a :: s, b :: t => if a = b then locationLe s t else Path.nameLe a b

/-- The entries below the working directory, each directory before its
content and names in order. -/
def tree (d : Disk) : List (Path × Node) :=
  let below := d.nodes.filterMap fun e =>
    if d.workDir.isPrefixOf e.1 && e.1 != d.workDir then some (e.1.drop d.workDir.length, e.2)
    else none
  (below.mergeSort fun a b => locationLe a.1 b.1).map fun e => (Path.ofNames false e.1, e.2)

end Disk

end Upkeep
