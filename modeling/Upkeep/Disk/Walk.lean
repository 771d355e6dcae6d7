import Upkeep.Disk.Basic

/-!
# Walking a path

`Disk.locate` follows the names of a path from the root or the working
directory to a location. Links are followed wherever they stand, the last
name included, but at most forty of them. Every name but the last has to
lead to a directory; the last may lead to nothing, which is how new
entries are made. `Disk.resolve` asks for something at the end.

The *real path* of what is found there leads from the root to its
location. It is told by looking up the real path of everything on the way,
so it takes that none of these is too long for a path (`Disk.realPath?`).
The path itself may be fine all the same: it starts at the working
directory, and a link says little for a long way.
-/

namespace Upkeep

namespace Disk

/-- The most links followed on the way of one path. -/
def maxLinks : Nat := 40

/-- The location where a path starts that is written in the directory
`here`. -/
def origin (here : Location) (p : Path) : Location :=
  if p.isAbsolute then [] else here

/-- Follow names from a directory. `follow` goes on behind a link: it is
given the directory of the link, the link's path and the names left. -/
def walkWith (d : Disk) (follow : Location → Path → List Name → Except DiskFault Location)
    (here : Location) : List Name → Except DiskFault Location
  | [] => .ok here
  | n :: rest =>
      if n = Path.selfName then walkWith d follow here rest
      else if n = Path.parentName then walkWith d follow here.dropLast rest
      else if Path.isLongName n then .error .nameTooLong
      else
        match d.node? (here ++ [n]) with
        | none => if rest.isEmpty then .ok (here ++ [n]) else .error .notFound
        | some (.dir _) => walkWith d follow (here ++ [n]) rest
        | some (.file _ _) => if rest.isEmpty then .ok (here ++ [n]) else .error .notDirectory
        | some (.link target) => follow here target rest

/-- Follow names from a directory, through at most `links` links. -/
def walk (d : Disk) : (links : Nat) → Location → List Name → Except DiskFault Location
  | 0 => d.walkWith fun _ _ _ => .error .linkLoop
  | links + 1 =>
      d.walkWith fun here target rest =>
        walk d links (origin here target) (target.steps ++ rest)

/-- Refuse the paths that cannot be walked at all. -/
def checkPath (p : Path) : Except DiskFault Unit :=
  if p.hasNul then .error .nulInPath
  else if p.isEmpty then .error .notFound
  else if p.isLong then .error .nameTooLong
  else .ok ()

/-- The location a path leads to, whether or not something is there. -/
def locate (d : Disk) (p : Path) : Except DiskFault Location := do
  checkPath p
  d.walk maxLinks (origin d.workDir p) p.steps

/-- The location and the node a path leads to. -/
def resolve (d : Disk) (p : Path) : Except DiskFault (Location × Node) := do
  let loc ← d.locate p
  match d.node? loc with
  | some n => .ok (loc, n)
  | none => .error .notFound

def find? (d : Disk) (p : Path) : Option Node :=
  match d.resolve p with
  | .ok (_, n) => some n
  | .error _ => none

def isDir (d : Disk) (p : Path) : Bool := (d.find? p).any Node.isDir

def isFile (d : Disk) (p : Path) : Bool := (d.find? p).any Node.isFile

def folderAt (d : Disk) (p : Path) : Except DiskFault Location := do
  match ← d.resolve p with
  | (loc, .dir _) => .ok loc
  | _ => .error .notDirectory

/-- The location of the entry that a path names, without following a link
there: the place that a renamed file takes. -/
def entry (d : Disk) (p : Path) : Except DiskFault Location := do
  if p.hasNul then throw .invalidArgument
  checkPath p
  match p.names.getLast? with
  | none => .error .busy
  | some n =>
      let loc ← d.walk maxLinks (origin d.workDir p) (p.names.dropLast ++ [Path.selfName])
      if n = Path.selfName || n = Path.parentName then .error .busy
      else if Path.isLongName n then .error .nameTooLong
      else if p.endsInSlash then .error .notDirectory
      else .ok (loc ++ [n])

/-! ## Real paths -/

/-- The locations that are looked up when names are followed. `follow`
goes on behind a link. -/
def lookupsWith (d : Disk) (follow : Location → Path → List Name → List Location)
    (here : Location) : List Name → List Location
  | [] => []
  | n :: rest =>
      if n = Path.selfName then lookupsWith d follow here rest
      else if n = Path.parentName then lookupsWith d follow here.dropLast rest
      else
        (here ++ [n]) ::
          match d.node? (here ++ [n]) with
          | some (.dir _) => lookupsWith d follow (here ++ [n]) rest
          | some (.link target) => follow here target rest
          | _ => []

/-- The locations that `Disk.walk` looks up. -/
def lookups (d : Disk) : (links : Nat) → Location → List Name → List Location
  | 0 => d.lookupsWith fun _ _ _ => []
  | links + 1 =>
      d.lookupsWith fun here target rest =>
        lookups d links (origin here target) (target.steps ++ rest)

/-- Nothing on the way of the path has a real path that is too long. -/
def hasRealPath (d : Disk) (p : Path) : Bool :=
  (d.lookups maxLinks (origin d.workDir p) p.steps).all fun loc =>
    !(Path.ofNames true loc).isLong

/-- The location that a path leads to, if its real path can be told. -/
def realPath? (d : Disk) (p : Path) : Option Location :=
  match d.resolve p with
  | .ok (loc, _) => if d.hasRealPath p then some loc else none
  | .error _ => none

end Disk

end Upkeep
