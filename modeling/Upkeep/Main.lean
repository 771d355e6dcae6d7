import Upkeep.Program

/-!
# The command line

The program itself works on a disk that is a value. Here the entries it
can ask for are read from the machine into such a disk, the program is
run on it, and the files that differ afterwards are written back.

This layer is coarser than the disk. The modes of files cannot be asked
for, so all files are read with the same one, and a file is written back in
place, which keeps its mode but is not atomic. A link is only touched if it
became a file. Entries whose real path is too long are not read.
-/

namespace Upkeep

namespace CommandLine

/-- The real path of a location. -/
def realPath (loc : Location) : String := String.ofList (Path.ofNames true loc)

/-- The entry of the machine at a location whose directory is free of
links. A link is read as one to where it leads in the end. -/
def readEntry (loc : Location) : IO (Option Node) := do
  let path := (← IO.currentDir) / realPath loc
  if !(← path.pathExists) then return none
  let real ← IO.FS.realPath path
  if real.toString != realPath loc then return some (.link real.toString.toList)
  if ← path.isDir then return some (.dir Node.dirMode)
  return some (.file Node.fileMode (← IO.FS.readBinFile path).toList)

/-- Read the entry at a location into a disk, if there is one that can be
read. -/
def capture (d : Disk) (loc : Location) : IO Disk := do
  let entry ← try readEntry loc catch _ => pure none
  return entry.elim d (d.put loc)

/-- The locations of the directories above a location, and its own. -/
def trail (loc : Location) : List Location :=
  (List.range loc.length).map fun k => loc.take (k + 1)

/-- Read the entries that a path passes, from a directory on. -/
def captureNames (d : Disk) (here : Location) : List Name → IO Disk
  | [] => return d
  | n :: rest => do
      if n = Path.selfName then captureNames d here rest
      else if n = Path.parentName then captureNames d here.dropLast rest
      else
        let d ← capture d (here ++ [n])
        match d.node? (here ++ [n]) with
        | some (.link target) =>
            let d ← (trail target.names).foldlM capture d
            captureNames d target.names rest
        | some _ => captureNames d (here ++ [n]) rest
        | none => return d

/-- Read the entries that a path passes. -/
def capturePath (d : Disk) (p : Path) : IO Disk :=
  captureNames d (Disk.origin d.workDir p) p.names

/-- Read the entries of a directory, and what they lead to. -/
def captureDir (d : Disk) (p : Path) : IO Disk := do
  let d ← capturePath d p
  if d.isDir p then
    let entries ← ((← IO.currentDir) / String.ofList p).readDir
    entries.foldlM (fun d e => capturePath d (p.join e.fileName.toList)) d
  else return d

/-- The disk with nothing but the way to the working directory. -/
def startDisk : IO Disk := do
  let here := Path.names (← IO.FS.realPath (← IO.currentDir)).toString.toList
  (trail here).foldlM capture { nodes := [], drafts := [], workDir := here, distinct := List.nodup_nil }

/-- The disk that an invocation looks at. -/
def diskFor (inv : Invocation) : IO Disk := do
  let d ← capturePath (← startDisk) (inv.config.getD (inv.root.join Settings.fileName))
  match Settings.load d inv.root inv.config with
  | .error _ => return d
  | .ok s =>
      match inv.job with
      | .imports =>
          let d ← capturePath d s.templatesPath
          (s.mappings.map fun m => s.templatesPath.join m.template).foldlM capturePath d
      | .generators => s.generatorPaths.foldlM capturePath d
      | .templates => captureDir d s.templatesPath

/-- Write back the files that differ. -/
def writeBack (old new : Disk) : IO Unit :=
  new.nodes.forM fun e =>
    match e.2 with
    | .file _ bytes => do
        let before := old.node? e.1
        if before = some e.2 then return ()
        if before.any fun node => node matches .link _ then IO.FS.removeFile (realPath e.1)
        IO.FS.writeBinFile (realPath e.1) bytes.toByteArray
    | _ => return ()

def complain : List Text → IO Unit
  | [] => return ()
  | [cause] => IO.eprintln s!"Error: {String.ofList cause}"
  | cause :: causes => do
      IO.eprintln s!"Error: {String.ofList cause}\n\nCaused by:"
      causes.forM fun c => IO.eprintln s!"    {String.ofList c}"

/-- Run the program on the machine. -/
def run (args : List Text) : IO UInt32 := do
  let d ←
    match Request.ofArguments args with
    | .run inv => diskFor inv
    | _ => startDisk
  let done := Program.run args d
  writeBack d done.disk
  IO.print (String.ofList done.output)
  complain done.complaint
  return UInt32.ofNat done.exitCode

end CommandLine

end Upkeep

/-- Run the program with the arguments of the command line. -/
def main (args : List String) : IO UInt32 :=
  Upkeep.CommandLine.run (args.map String.toList)
