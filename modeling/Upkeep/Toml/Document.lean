import Upkeep.Toml.Moment
import Upkeep.Toml.Value

/-!
# TOML documents

A document is read in two steps. The characters are read as a list of
statements: headers and assignments. Then the statements are carried out
one after the other on an empty table, where every assignment goes to the
table of the last header before it (`Document.run`).

Arrays and tables in braces may be nested, but not deeper than the limit.
The depth left is the measure on which the reader of values recurses.
-/

namespace Upkeep.Toml

/-! ## Keys -/

def isKeyChar (c : Char) : Bool :=
  isDigit c || ('a' ≤ c && c ≤ 'z') || ('A' ≤ c && c ≤ 'Z') || c == '-' || c == '_'

/-- One key, in quotes or without. -/
def simpleKey : Reader Key
  | '"' :: s => basic s
  | '\x27' :: s => literal s
  | s =>
      if (s.takeWhile isKeyChar).isEmpty then none
      else some (s.takeWhile isKeyChar, s.dropWhile isKeyChar)

/-- Nesting has to stay below this depth, and so has the length of a
dotted key. -/
def nestingLimit : Nat := 80

/-- Keys joined by dots, with spaces around each, at most `most` of them.
The last key is returned apart. -/
def dottedKey : (most : Nat) → Reader (List Key × Key)
  | 0, _ => none
  | most + 1, s => do
      let (k, s) ← simpleKey (skipSpace s)
      match skipSpace s with
      | '.' :: s =>
          let ((path, last), s) ← dottedKey most s
          return ((k :: path, last), s)
      | s => return (([], k), s)

def key (s : Text) : Option ((List Key × Key) × Text) := dottedKey (nestingLimit - 1) s

/-! ## Values -/

/-- The text behind spaces, comments and line breaks. -/
def skipFiller (inComment : Bool) : Text → Option Text
  | [] => some []
  | '\n' :: s => skipFiller false s
  | '\r' :: '\n' :: s => skipFiller false s
  | c :: s =>
      if inComment then if isPlain c then skipFiller true s else none
      else if isSpace c then skipFiller false s
      else if c == '#' then skipFiller true s
      else some (c :: s)

/-- The items of an array up to its closing bracket. `fuel` exceeds the
number of items. -/
def arrayItems (value : Reader Value) : (fuel : Nat) → Reader (List Value)
  | 0, _ => none
  | fuel + 1, s => do
      match ← skipFiller false s with
      | ']' :: s => return ([], s)
      | s =>
          let (v, s) ← value s
          match ← skipFiller false s with
          | ']' :: s => return ([v], s)
          | ',' :: s =>
              let (vs, s) ← arrayItems value fuel s
              return (v :: vs, s)
          | _ => none

/-- The assignments in braces up to the closing brace. `fuel` exceeds
their number. -/
def inlineEntries (value : Reader Value) : (fuel : Nat) → Reader (List (List Key × Key × Value))
  | 0, _ => none
  | fuel + 1, s => do
      let ((path, k), s) ← key s
      let s ← char '=' s
      let (v, s) ← value (skipSpace s)
      match skipSpace s with
      | '\x7d' :: s => return ([(path, k, v)], s)
      | ',' :: s =>
          let (es, s) ← inlineEntries value fuel s
          return ((path, k, v) :: es, s)
      | _ => none

def inlineTable (value : Reader Value) (s : Text) : Option (Value × Text) :=
  match skipSpace s with
  | '\x7d' :: s => some (.table .inline [], s)
  | s => do
      let (es, rest) ← inlineEntries value (s.length + 1) s
      return (.table .inline (← Table.ofAssignments es), rest)

/-- A date, a time or a number. -/
def quantity (s : Text) : Option (Value × Text) :=
  match moment s with
  | some (t, rest) => some (.moment t, rest)
  | none =>
      match number s with
      | some (.integer n, rest) => some (.integer n, rest)
      | some (.float t, rest) => some (.float t, rest)
      | none => none

def value : (depth : Nat) → Reader Value
  | depth, s =>
      match s with
      | '[' :: t =>
          match depth with
          | 0 => none
          | depth + 1 => (arrayItems (value depth) (t.length + 1) t).map fun r => (.array r.1, r.2)
      | '\x7b' :: t =>
          match depth with
          | 0 => none
          | depth + 1 => inlineTable (value depth) t
      | 't' :: 'r' :: 'u' :: 'e' :: t => some (.boolean true, t)
      | 'f' :: 'a' :: 'l' :: 's' :: 'e' :: t => some (.boolean false, t)
      | '"' :: _ | '\x27' :: _ => (string s).map fun r => (.string r.1, r.2)
      | _ => quantity s

/-! ## Statements -/

/-- A statement of a document. -/
inductive Statement where
  /-- The header of a table, in brackets. -/
  | header (path : List Key) (k : Key)
  /-- The header of one of several tables, in double brackets. -/
  | nextHeader (path : List Key) (k : Key)
  | assign (path : List Key) (k : Key) (v : Value)
  deriving Repr

def skipComment : Text → Option Text
  | [] => some []
  | c :: s => if isPlain c then skipComment s else some (c :: s)

/-- The text behind a line break or at the end. -/
def lineEnd (s : Text) : Option Text :=
  match s with
  | [] => some []
  | _ => lineBreak? s

/-- The text behind the end of a line, which may hold a comment. -/
def restOfLine (s : Text) : Option Text :=
  match skipSpace s with
  | '#' :: s => skipComment s >>= lineEnd
  | s => lineEnd s

/-- The statement of a line that is neither blank nor only a comment, and
the text behind that line. -/
def statement (s : Text) : Option (Statement × Text) :=
  match s with
  | '[' :: '[' :: s => do
      let ((path, k), s) ← key s
      let s ← char ']' s >>= char ']' >>= restOfLine
      return (.nextHeader path k, s)
  | '[' :: s => do
      let ((path, k), s) ← key s
      let s ← char ']' s >>= restOfLine
      return (.header path k, s)
  | s => do
      let ((path, k), s) ← key s
      let s ← char '=' s
      let (v, s) ← value (nestingLimit - 1) (skipSpace s)
      let s ← restOfLine s
      return (.assign path k v, s)

/-- The statements of a text. `fuel` exceeds the number of its lines. -/
def statements : (fuel : Nat) → Text → Option (List Statement)
  | 0, _ => none
  | fuel + 1, s =>
      match skipSpace s with
      | [] => some []
      | '\n' :: s => statements fuel s
      | '\r' :: '\n' :: s => statements fuel s
      | '#' :: s => skipComment s >>= lineEnd >>= statements fuel
      | s => do
          let (first, s) ← statement s
          let rest ← statements fuel s
          return first :: rest

/-! ## Documents -/

namespace Document

/-- Carry out statements in order. `here` is the path of the last header. -/
def run : (here : List Key) → Table → List Statement → Option Table
  | _, t, [] => some t
  | _, t, .header path k :: rest => do run (path ++ [k]) (← t.updateAt (·.declare k) path) rest
  | _, t, .nextHeader path k :: rest => do
      run (path ++ [k]) (← t.updateAt (·.declareNext k) path) rest
  | here, t, .assign path k v :: rest => do
      run here (← t.updateAt (·.assign path k v) here) rest

/-- The mark that may stand before the first character of a text. -/
def byteOrderMark : Char := Char.ofNat 0xFEFF

/-- The text without a byte order mark in front. -/
def dropMark (s : Text) : Text := if s.head? = some byteOrderMark then s.tail else s

def read (s : Text) : Option Table := do
  run [] [] (← statements (s.length + 1) (dropMark s))

end Document

end Upkeep.Toml
