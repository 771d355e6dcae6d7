import Upkeep.Disk.Walk

/-!
# Reading and replacing files

A file is read as a whole. It is replaced through a *draft*: a private
temporary file in the directory of the file, which is filled, takes over
the mode of what the path leads to, and is then renamed onto the file. If
any of this is refused, the draft is removed.

Links are written through as long as the real path of what they lead to
can be told: that is what the draft replaces. Otherwise the draft takes
the place of the entry that the path names, whatever the reason. A link
that dangles is replaced, and so is one to a file whose real path is too
long.
-/

namespace Upkeep

/-! ## Reading -/

/-- Why a file cannot be read as text. -/
inductive ReadFault where
  | disk (fault : DiskFault)
  | encoding (fault : Utf8.Fault)
  deriving Repr, DecidableEq

def ReadFault.message : ReadFault → String
  | .disk fault => fault.message
  | .encoding fault => fault.message

namespace Disk

def readBytes (d : Disk) (p : Path) : Except DiskFault (List UInt8) := do
  match ← d.resolve p with
  | (_, .file _ bytes) => .ok bytes
  | (_, .dir _) => .error .isDirectory
  | (_, .link _) => .error .linkLoop

def readText (d : Disk) (p : Path) : Except ReadFault Text :=
  match d.readBytes p with
  | .error fault => .error (.disk fault)
  | .ok bytes =>
      match Utf8.decode bytes with
      | .error fault => .error (.encoding fault)
      | .ok t => .ok t

end Disk

/-! ## Replacing -/

/-- Why a file cannot be replaced. -/
inductive WriteFault where
  /-- The temporary file cannot be made or filled. -/
  | temporary (fault : DiskFault) (draft : Path)
  /-- The temporary file cannot take the place of the file. -/
  | replace (fault : DiskFault)
  deriving Repr, DecidableEq

/-- The text shown for a write fault. It tells the path of a temporary
file that is in the way. -/
def WriteFault.message : WriteFault → Text
  | .temporary fault draft => fault.message.toList ++ " at path ".toList ++ draft.quoted
  | .replace fault => fault.message.toList

/-- Where a file is replaced. -/
structure Site where
  /-- The directory of the draft, as it is written in its path. -/
  folder : Path
  /-- The location of that directory. -/
  home : Except DiskFault Location
  /-- The location that the draft is renamed to. -/
  place : Except DiskFault Location

namespace Disk

/-- Where the file at a path is replaced: beside its real path, if that
can be told, and beside the entry that the path names otherwise. -/
def site (d : Disk) (p : Path) : Site :=
  match d.realPath? p with
  | some loc =>
      { folder := (Path.ofNames true loc).parent
        -- the root is in no directory, and the draft is made where the program runs
        home := .ok (if loc = [] then d.workDir else loc.dropLast)
        place := .ok loc }
  | none =>
      { folder := p.parent
        home := d.folderAt p.parent
        place := d.entry p }

def modeAt? (d : Disk) (p : Path) : Option Nat := (d.find? p).bind Node.mode?

/-- The path of a draft, up to the random part. -/
def draftStem (d : Disk) (folder : Path) : Path :=
  ((Path.ofNames true d.workDir).join folder).join ".tmp".toList

/-- The path of a draft. It starts at the root. -/
def draftPath (d : Disk) (folder : Path) : Path := d.draftStem folder ++ d.draftTag.letters

/-- Refuse a step with a draft where the disk does. -/
def permit (d : Disk) (step : DraftStep) (place : Location) : Except DiskFault Unit :=
  match d.refusals.find? fun r => r.step = step && r.place = place with
  | some refusal => .error refusal.fault
  | none => .ok ()

def addDraft (d : Disk) (draft : Draft) : Disk := { d with drafts := draft :: d.drafts }

def openDraft (d : Disk) (site : Site) : Except DiskFault Disk := do
  checkPath (d.draftPath site.folder)
  let home ← site.home
  d.permit .make home
  .ok (d.addDraft ⟨home, Node.privateMode, []⟩)

def fillDraft (d : Disk) (bytes : List UInt8) : Except DiskFault Disk :=
  match d.drafts with
  | [] => .error .notFound
  | draft :: rest => do
      d.permit .fill draft.folder
      .ok { d with drafts := { draft with bytes } :: rest }

/-- Set the mode of the newest draft. Without a mode to set it stays
private. -/
def setDraftMode (d : Disk) : Option Nat → Except DiskFault Disk
  | none => .ok d
  | some mode =>
      match d.drafts with
      | [] => .error .notFound
      | draft :: rest => do
          d.permit .setMode draft.folder
          .ok { d with drafts := { draft with mode } :: rest }

def dropDraft (d : Disk) : Disk := { d with drafts := d.drafts.tail }

/-- Rename the newest draft onto a location. A directory is never
replaced. -/
def renameDraft (d : Disk) (loc : Location) : Except DiskFault Disk :=
  match d.drafts with
  | [] => .error .notFound
  | draft :: _ => do
      d.permit .rename loc
      if loc = [] then .error .busy
      else
        match d.node? loc with
        | some (.dir _) => .error .isDirectory
        | _ => .ok (d.dropDraft.put loc (.file draft.mode draft.bytes))

/-- Fill the newest draft and let it take its place. -/
def settleDraft (d : Disk) (site : Site) (mode? : Option Nat) (bytes : List UInt8) :
    Except WriteFault Disk := do
  let filled ← (d.fillDraft bytes).mapError (.temporary · (d.draftPath site.folder))
  Except.mapError .replace do
    let ready ← filled.setDraftMode mode?
    let loc ← site.place
    ready.renameDraft loc

/-- Replace what a path leads to by a file with these bytes. -/
def replaceBytes (d : Disk) (p : Path) (bytes : List UInt8) : Except WriteFault Unit × Disk :=
  let site := d.site p
  match d.openDraft site with
  | .error fault => (.error (.temporary fault (d.draftPath site.folder)), d)
  | .ok opened =>
      match opened.settleDraft site (d.modeAt? p) bytes with
      | .error fault => (.error fault, opened.dropDraft)
      | .ok done => (.ok (), done)

def replaceText (d : Disk) (p : Path) (t : Text) : Except WriteFault Unit × Disk :=
  d.replaceBytes p (Utf8.encode t)

end Disk

end Upkeep
