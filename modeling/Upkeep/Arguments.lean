import Upkeep.Disk.Path

/-!
# Arguments of the program

The arguments name a job and give options. The options that hold for all
jobs may stand before the job's name or behind it; where both sides give
one, the later one counts, but one side may give it only once. Short
flags may be joined, and a long option takes its value from the next
argument or behind an equals sign.

An argument is never looked at twice, and whether an option was rightly
given is settled when the next option comes, or at the end of its side.
Asking for help ends everything at once.
-/

namespace Upkeep

/-- What the program can do. -/
inductive Job where
  | imports
  | generators
  | templates
  deriving Repr, DecidableEq

namespace Job

/-- The name that asks for a job. -/
def name : Job → Text
  | imports => "imports".toList
  | generators => "generators".toList
  | templates => "templates".toList

/-- The job with a given name. -/
def ofName? (n : Text) : Option Job := [imports, generators, templates].find? (·.name == n)

/-- Jobs that change files, and that can be run without doing so. -/
def canDryRun : Job → Bool
  | imports => false
  | generators | templates => true

end Job

/-- A job with its options. -/
structure Invocation where
  job : Job
  root : Path
  config : Option Path
  dryRun : Bool
  deriving Repr, DecidableEq

/-- What the arguments ask for. -/
inductive Request where
  | run (invocation : Invocation)
  | help
  | version
  /-- The arguments make no sense. -/
  | invalid
  deriving Repr, DecidableEq

namespace Arguments

/-! ## Single arguments -/

/-- The forms of an argument. -/
inductive Argument where
  /-- Two dashes alone: only words follow. -/
  | endOfOptions
  | long (name : Text) (value : Option Text)
  | short (flags : Text)
  | word (text : Text)
  deriving Repr, DecidableEq

/-- The text before the first equals sign, and the text behind it. -/
def splitEquals (t : Text) : Text × Option Text :=
  match t.dropWhile (· ≠ '=') with
  | [] => (t, none)
  | _ :: v => (t.takeWhile (· ≠ '='), some v)

def Argument.of : Text → Argument
  | ['-', '-'] => endOfOptions
  | '-' :: '-' :: t => long (splitEquals t).1 (splitEquals t).2
  | '-' :: c :: t => short (c :: t)
  | t => word t

/-! ## Options of one side -/

/-- The options that take a path. -/
inductive PathOption where
  | root
  | config
  deriving Repr, DecidableEq

/-- What one side of the job's name has given so far. -/
structure Side where
  root : Option Path
  config : Option Path
  dryRun : Bool
  verbosity : Nat
  /-- An option that is not settled yet, with its value if that has come. -/
  pending : Option (PathOption × Option Text)
  deriving Repr, DecidableEq

namespace Side

def empty : Side := ⟨none, none, false, 0, none⟩

def awaitsValue (s : Side) : Bool :=
  match s.pending with
  | some (_, none) => true
  | _ => false

def giveValue (s : Side) (v : Text) : Side :=
  { s with pending := s.pending.map fun p => (p.1, some v) }

/-- Set an option. Its value must not be empty, and no other value may
have been given before. -/
def set (s : Side) (o : PathOption) (v : Text) : Option Side :=
  if v.isEmpty then none
  else
    match o with
    | .root => if s.root.isSome then none else some { s with root := some v }
    | .config => if s.config.isSome then none else some { s with config := some v }

def settle (s : Side) : Option Side :=
  match s.pending with
  | none => some s
  | some (_, none) => none
  | some (o, some v) => { s with pending := none }.set o v

end Side

/-- Where options stand. -/
inductive Placement where
  | beforeJob
  | behind (job : Job)
  deriving Repr, DecidableEq

namespace Placement

def hasVersion : Placement → Bool
  | beforeJob => true
  | behind _ => false

def hasDryRun : Placement → Bool
  | beforeJob => false
  | behind job => job.canDryRun

end Placement

/-- Take joined short flags in order. -/
def takeShort (place : Placement) : Side → Text → Except Request Side
  | s, [] => .ok s
  | s, c :: t =>
      if c == 'v' then takeShort place { s with verbosity := s.verbosity + 1 } t
      else if c == 'h' then .error .help
      else if c == 'V' && place.hasVersion then .error .version
      else .error .invalid

def takePath (s : Side) (o : PathOption) : Option Text → Except Request Side
  | none => .ok { s with pending := some (o, none) }
  | some v =>
      match s.set o v with
      | some s => .ok s
      | none => .error .invalid

def takeLong (place : Placement) (s : Side) (name : Text) (value : Option Text) :
    Except Request Side :=
  if name == "root".toList then takePath s .root value
  else if name == "config".toList then takePath s .config value
  else if value.isSome then .error .invalid
  else if name == "help".toList then .error .help
  else if name == "version".toList && place.hasVersion then .error .version
  else if name == "dry-run".toList && place.hasDryRun && !s.dryRun then
    .ok { s with dryRun := true }
  else .error .invalid

/-- Take a short or a long option, once the one before it is settled. -/
def takeOption (s : Side) (take : Side → Except Request Side) : Except Request Side :=
  match s.settle with
  | some s => take s
  | none => .error .invalid

/-! ## The two sides -/

/-- The settled options behind the job's name. -/
def readBehind (job : Job) : Side → List Text → Except Request Side
  | s, [] => (s.settle).elim (.error .invalid) .ok
  | s, a :: rest =>
      match Argument.of a with
      | .endOfOptions =>
          if rest.isEmpty then (s.settle).elim (.error .invalid) .ok else .error .invalid
      | .word w => if s.awaitsValue then readBehind job (s.giveValue w) rest else .error .invalid
      | .short flags => do
          readBehind job (← takeOption s (takeShort (.behind job) · flags)) rest
      | .long name value => do
          readBehind job (← takeOption s (takeLong (.behind job) · name value)) rest

/-- The invocation made of the options on both sides. -/
def combine (job : Job) (front back : Side) : Invocation where
  job
  root := (back.root.or front.root).getD Path.selfName
  config := back.config.or front.config
  dryRun := back.dryRun

def helpFor : List Text → Request
  | [] => .help
  | [n] => if n == "help".toList || (Job.ofName? n).isSome then .help else .invalid
  | _ => .invalid

/-- Read the arguments from the first on. -/
def readFront : Side → List Text → Except Request Request
  | _, [] => .error .invalid
  | s, a :: rest =>
      match Argument.of a with
      | .endOfOptions => .error .invalid
      | .word w =>
          if s.awaitsValue then readFront (s.giveValue w) rest
          else if w == "help".toList then .ok (helpFor rest)
          else
            match Job.ofName? w with
            | none => .error .invalid
            | some job => do
                let back ← readBehind job .empty rest
                match s.settle with
                | none => .error .invalid
                | some front => .ok (.run (combine job front back))
      | .short flags => do
          readFront (← takeOption s (takeShort .beforeJob · flags)) rest
      | .long name value => do
          readFront (← takeOption s (takeLong .beforeJob · name value)) rest

end Arguments

/-- What the arguments ask for. -/
def Request.ofArguments (args : List Text) : Request :=
  match Arguments.readFront .empty args with
  | .ok r => r
  | .error r => r

end Upkeep
