import Upkeep.Disk.Walk

/-!
# Listing a directory

The files of a directory with a given extension, in the order of their
names. What counts as a file is decided after following
links, so a link to a file is listed and a link to a directory is not.
-/

namespace Upkeep

/-- The path does not lead to a directory. -/
structure DirectoryMissing where
  dir : Path
  deriving Repr, DecidableEq

def DirectoryMissing.message (e : DirectoryMissing) : Text :=
  "directory not found: ".toList ++ e.dir

namespace Disk

/-- The names of the entries of a directory, in order. -/
def sortedNames (d : Disk) (loc : Location) : List Name :=
  (d.namesIn loc).mergeSort Path.nameLe

/-- The files directly inside a directory whose extension is `ext`, in
the order of their names. -/
def listFiles (d : Disk) (dir : Path) (ext : Text) : Except DirectoryMissing (List Path) :=
  match d.resolve dir with
  | .ok (loc, .dir _) =>
      let named := (d.sortedNames loc).filter fun n => Path.extension? n == some ext
      .ok ((named.map dir.join).filter d.isFile)
  | _ => .error ⟨dir⟩

end Disk

end Upkeep
