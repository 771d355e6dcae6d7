import Upkeep.Text.Line
import Upkeep.Text.Utf8

/-!
# Paths

A path is kept as it was written; nothing is normalised before it is
shown again. Three readings of a path are needed.

- `Path.steps` is how the file system walks it: names separated by
  slashes, repeated slashes counting once, and a slash at the end asking
  for a directory, like a final `.` does.
- `Path.parts` is how a path is taken apart: a `.` counts only in front,
  and a slash at the end does not count at all.
- `Path.join` puts one path behind another.
-/

namespace Upkeep

/-- A path as it was written. -/
abbrev Path := Text

/-- The name of an entry of a directory. -/
abbrev Name := Text

namespace Path

def selfName : Name := ['.']

def parentName : Name := ['.', '.']

def isAbsolute (p : Path) : Bool := p.head? == some '/'

/-- The names of a path, `.` and `..` included. -/
def names (p : Path) : List Name := (Text.cut '/' p).filter (!·.isEmpty)

def endsInSlash (p : Path) : Bool := p.getLast? == some '/'

/-- The names to follow from the start of the path. A slash at the end
asks for a directory. -/
def steps (p : Path) : List Name :=
  if p.endsInSlash then p.names ++ [selfName] else p.names

/-- The parts of a path: its names without any `.` but one in front. -/
def parts (p : Path) : List Name :=
  let kept := p.names.filter (· ≠ selfName)
  if !p.isAbsolute && p.names.head? == some selfName then selfName :: kept else kept

/-- The last part, if it names an entry. -/
def fileName? (p : Path) : Option Name :=
  match p.parts.getLast? with
  | none => none
  | some n => if n = selfName || n = parentName then none else some n

/-- The last part, or the whole path if its last part names no entry. -/
def displayName (p : Path) : Text := p.fileName?.getD p

/-- The path with the given names, from the root or from the working
directory. -/
def ofNames (absolute : Bool) (names : List Name) : Path :=
  (if absolute then ['/'] else []) ++ ['/'].intercalate names

/-- Drop the pieces at the end that add nothing to a path. -/
def dropBlanks (pieces : List Name) : List Name :=
  (pieces.reverse.dropWhile fun n => n.isEmpty || n = selfName).reverse

/-- The directory that holds the last part of a path, as it is written in
front of that part. -/
def parent (p : Path) : Path :=
  match dropBlanks (Text.cut '/' p) with
  | [] => selfName
  | pieces =>
      match dropBlanks pieces.dropLast with
      | [] => if p.isAbsolute then ['/'] else selfName
      | above => ['/'].intercalate above

/-- The path `b` as seen from the directory `a`. -/
def join (a b : Path) : Path :=
  if b.isAbsolute then b
  else if a.isEmpty || a.endsInSlash then a ++ b
  else a ++ '/' :: b

/-- What follows the last dot of a name, if something stands before that
dot. -/
def extension? (n : Name) : Option Text :=
  let backwards := n.reverse
  match backwards.dropWhile (· ≠ '.') with
  | [] => none
  | _ :: stem => if stem.isEmpty then none else some (backwards.takeWhile (· ≠ '.')).reverse

/-- The order of names: by code points, which is the order of their
bytes. -/
def nameLe : Name → Name → Bool
  | [], _ => true
  | _ :: _, [] => false
  | a :: s, b :: t => a.toNat < b.toNat || (a == b && nameLe s t)

def maxNameBytes : Nat := 255

def maxPathBytes : Nat := 4095

/-- A name the file system refuses for its length. -/
def isLongName (n : Name) : Bool := maxNameBytes < Text.byteSize n

/-- A path the file system refuses for its length. -/
def isLong (p : Path) : Bool := maxPathBytes < Text.byteSize p

def nul : Char := Char.ofNat 0

def hasNul (p : Path) : Bool := p.any (· == nul)

/-- A character of a path between quotes. Control characters are shown by
their number. In fact so are all others that cannot be printed. -/
def quotedChar (c : Char) : Text :=
  if c = '"' || c = '\\' then ['\\', c]
  else if c = '\t' then ['\\', 't']
  else if c = '\n' then ['\\', 'n']
  else if c = '\r' then ['\\', 'r']
  else if c = nul then ['\\', '0']
  else if c.toNat < 0x20 || 0x7f ≤ c.toNat && c.toNat < 0xa0 then
    "\\u\x7b".toList ++ Nat.toDigits 16 c.toNat ++ "\x7d".toList
  else [c]

/-- The path between quotes, as the name of a temporary file is shown. -/
def quoted (p : Path) : Text := '"' :: p.flatMap quotedChar ++ ['"']

end Path

end Upkeep
