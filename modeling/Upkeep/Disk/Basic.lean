import Upkeep.Disk.Path

/-!
# The file system as a value

A *disk* is a finite table from locations to nodes, with a working
directory. A location is the list of names that leads from the root to an
entry, with no links and no dots in it; a node is a file with its mode
and bytes, a directory, or a symbolic link. The root is always there.

Since a node is found by its location alone, changing one entry visibly
leaves all others as they are (`node?_put_ne`).

Temporary files have random names that nobody else asks for, so they are
not kept in the table. A disk lists its *drafts* instead, the temporary
files that exist at the moment, the newest first.

The program is run by root, who can look up, list and read everything.
What a draft needs may be refused all the same, for want of space or of a
permission, or because the file system is read-only or broken. A disk lists
what is refused where. The list stays as it is while the program runs.
-/

namespace Upkeep

/-- The names from the root to an entry. -/
abbrev Location := List Name

/-- An entry of the file system. -/
inductive Node where
  /-- A regular file with its permission bits. -/
  | file (mode : Nat) (bytes : List UInt8)
  | dir (mode : Nat)
  /-- A symbolic link, with the path it was given. -/
  | link (target : Path)
  deriving Repr, DecidableEq

namespace Node

def isDir : Node → Bool
  | dir _ => true
  | _ => false

def isFile : Node → Bool
  | file _ _ => true
  | _ => false

/-- Permission bits of a new directory. -/
def dirMode : Nat := 0o755

def fileMode : Nat := 0o644

def privateMode : Nat := 0o600

/-- The permission bits of a file or a directory. -/
def mode? : Node → Option Nat
  | file mode _ | dir mode => some mode
  | link _ => none

end Node

/-! ## Tables of nodes -/

namespace NodeTable

def put (loc : Location) (n : Node) : List (Location × Node) → List (Location × Node)
  | [] => [(loc, n)]
  | e :: es => if e.1 = loc then (loc, n) :: es else e :: put loc n es

theorem mem_keys_put {loc l : Location} {n : Node} {es : List (Location × Node)} :
    l ∈ (put loc n es).map (·.1) → l = loc ∨ l ∈ es.map (·.1) := by
  induction es with
  | nil => simp [put]
  | cons e es ih =>
      by_cases h : e.1 = loc
      · simp [put, h]
      · simp only [put, h, if_false, List.map_cons, List.mem_cons]
        rintro (rfl | hl)
        · exact .inr (.inl rfl)
        · rcases ih hl with h' | h'
          · exact .inl h'
          · exact .inr (.inr h')

theorem nodup_keys_put {loc : Location} {n : Node} {es : List (Location × Node)}
    (h : (es.map (·.1)).Nodup) : ((put loc n es).map (·.1)).Nodup := by
  induction es with
  | nil => simp [put]
  | cons e es ih =>
      rw [List.map_cons, List.nodup_cons] at h
      by_cases he : e.1 = loc
      · simp only [put, he, if_true, List.map_cons, List.nodup_cons]
        exact he ▸ h
      · simp only [put, he, if_false, List.map_cons, List.nodup_cons]
        refine ⟨fun hm => ?_, ih h.2⟩
        rcases mem_keys_put hm with h' | h'
        · exact he h'
        · exact h.1 h'

theorem lookup_put_self (loc : Location) (n : Node) (es : List (Location × Node)) :
    (put loc n es).lookup loc = some n := by
  induction es with
  | nil => simp [put]
  | cons e es ih =>
      obtain ⟨l, m⟩ := e
      by_cases h : l = loc
      · simp [put, h]
      · simp only [put, h, if_false]
        rw [List.lookup_cons, beq_false_of_ne (Ne.symm h)]
        exact ih

theorem lookup_put_ne {loc l : Location} (h : l ≠ loc) (n : Node)
    (es : List (Location × Node)) : (put loc n es).lookup l = es.lookup l := by
  induction es with
  | nil => simp [put, List.lookup_cons, beq_false_of_ne h]
  | cons e es ih =>
      obtain ⟨k, m⟩ := e
      by_cases hk : k = loc
      · subst hk
        simp [put, List.lookup_cons, beq_false_of_ne h]
      · simp only [put, hk, if_false, List.lookup_cons]
        split
        · rfl
        · exact ih

end NodeTable

/-! ## Faults -/

/-- Why the file system refuses an operation. -/
inductive DiskFault where
  | notPermitted
  | notFound
  | inputOutput
  | permissionDenied
  | busy
  | notDirectory
  | isDirectory
  | invalidArgument
  | noSpace
  | readOnly
  | nameTooLong
  | linkLoop
  | nulInPath
  deriving Repr, DecidableEq

def DiskFault.message : DiskFault → String
  | .notPermitted => "Operation not permitted (os error 1)"
  | .notFound => "No such file or directory (os error 2)"
  | .inputOutput => "Input/output error (os error 5)"
  | .permissionDenied => "Permission denied (os error 13)"
  | .busy => "Device or resource busy (os error 16)"
  | .notDirectory => "Not a directory (os error 20)"
  | .isDirectory => "Is a directory (os error 21)"
  | .invalidArgument => "Invalid argument (os error 22)"
  | .noSpace => "No space left on device (os error 28)"
  | .readOnly => "Read-only file system (os error 30)"
  | .nameTooLong => "File name too long (os error 36)"
  | .linkLoop => "Too many levels of symbolic links (os error 40)"
  | .nulInPath => "file name contained an unexpected NUL byte"

/-! ## Drafts -/

/-- A temporary file, in the directory where it was made. -/
structure Draft where
  folder : Location
  mode : Nat
  bytes : List UInt8
  deriving Repr, DecidableEq

/-- The random part of the names of temporary files. In fact it is drawn
for every single one of them. -/
structure DraftTag where
  letters : Text
  length : letters.length = 6
  plain : letters.all Char.isAlphanum = true
  deriving DecidableEq

instance : Inhabited DraftTag := ⟨"aaaaaa".toList, by decide, by decide⟩

/-- What is done with a draft, step by step. -/
inductive DraftStep where
  | make
  | fill
  | setMode
  | rename
  deriving Repr, DecidableEq

/-- A step that is refused at a place: in the directory of the draft, or
at the entry that it would replace. -/
structure Refusal where
  step : DraftStep
  place : Location
  fault : DiskFault
  deriving Repr, DecidableEq

/-! ## Disks -/

/-- A file system and the working directory in it. -/
structure Disk where
  nodes : List (Location × Node)
  drafts : List Draft
  workDir : Location
  distinct : (nodes.map (·.1)).Nodup
  refusals : List Refusal := []
  draftTag : DraftTag := default
  deriving DecidableEq

namespace Disk

/-- An empty working directory, two levels below the root. -/
def fresh : Disk where
  nodes :=
    [(["srv".toList], .dir Node.dirMode),
     (["srv".toList, "work".toList], .dir Node.dirMode)]
  drafts := []
  workDir := ["srv".toList, "work".toList]
  distinct := by decide

/-- The node at a location. -/
def node? (d : Disk) (loc : Location) : Option Node :=
  if loc = [] then some (.dir Node.dirMode) else d.nodes.lookup loc

def put (d : Disk) (loc : Location) (n : Node) : Disk :=
  { d with
    nodes := NodeTable.put loc n d.nodes
    distinct := NodeTable.nodup_keys_put d.distinct }

theorem node?_put_self (d : Disk) {loc : Location} (h : loc ≠ []) (n : Node) :
    (d.put loc n).node? loc = some n := by
  simp [node?, put, h, NodeTable.lookup_put_self]

theorem node?_put_ne (d : Disk) {loc l : Location} (h : l ≠ loc) (n : Node) :
    (d.put loc n).node? l = d.node? l := by
  simp [node?, put, NodeTable.lookup_put_ne h]

/-- The names of the entries of a directory, as the table has them. -/
def namesIn (d : Disk) (loc : Location) : List Name :=
  d.nodes.filterMap fun e => if e.1.dropLast = loc then e.1.getLast? else none

end Disk

end Upkeep
