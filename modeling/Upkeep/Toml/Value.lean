import Upkeep.Text.Blank

/-!
# TOML values and tables

A table lists its keys in the order in which they were set. How a table
came about decides what may still be added to it: a table written in
braces is closed, one that was only passed through on the way to another
may still get a header of its own, and one that dotted keys made may be
extended by dotted keys only.
-/

namespace Upkeep.Toml

abbrev Key := Text

/-- How a table came about. -/
inductive TableKind where
  /-- Written in braces. -/
  | inline
  /-- Passed through on the way to the table of a header. -/
  | implied
  /-- Made by a dotted key. -/
  | dotted
  /-- Named by a header. -/
  | header
  deriving Repr, DecidableEq

inductive Value where
  | string (text : Text)
  | integer (n : Int)
  /-- A float, as it is written. -/
  | float (text : Text)
  | boolean (b : Bool)
  /-- A date or a time, as it is written. -/
  | moment (text : Text)
  | array (items : List Value)
  | table (kind : TableKind) (entries : List (Key × Value))
  /-- The tables of repeated headers in double brackets. -/
  | tables (items : List (List (Key × Value)))
  deriving Repr

abbrev Table := List (Key × Value)

namespace Table

def get? (t : Table) (k : Key) : Option Value := t.lookup k

def set (t : Table) (k : Key) (v : Value) : Table :=
  t.map fun e => if e.1 = k then (k, v) else e

def insertNew (t : Table) (k : Key) (v : Value) : Option Table :=
  if (t.get? k).isSome then none else some (t ++ [(k, v)])

/-- Set a new key in the table that a dotted path leads to, starting in a
table of a given kind. The tables on the way have to be made by the path
or to have no header yet, and the last one has to be made by dotted keys. -/
def assignDotted (k : Key) (v : Value) : List Key → TableKind → Table → Option Table
  | [], kind, t => if kind = .dotted then t.insertNew k v else none
  | step :: path, _, t =>
      match t.get? step with
      | none => do
          let inner ← assignDotted k v path .dotted []
          return t ++ [(step, .table .dotted inner)]
      | some (.table kind inner) =>
          if kind = .implied || kind = .dotted then do
            let inner ← assignDotted k v path kind inner
            return t.set step (.table kind inner)
          else none
      | some (.tables items) => do
          let inner ← assignDotted k v path .header (items.getLast?.getD [])
          return t.set step (.tables (items.dropLast ++ [inner]))
      | some _ => none

/-- Set a new key of a table, which a path leads to. -/
def assign (path : List Key) (k : Key) (v : Value) (t : Table) : Option Table :=
  if path.isEmpty then t.insertNew k v else assignDotted k v path .header t

/-- The table of the assignments in braces. -/
def ofAssignments (entries : List (List Key × Key × Value)) : Option Table :=
  entries.foldlM (fun t e => t.assign e.1 e.2.1 e.2.2) []

/-- Change the table that the path of a header leads to. Tables on the way
are made if need be; of repeated tables the last one counts. -/
def updateAt (change : Table → Option Table) : List Key → Table → Option Table
  | [], t => change t
  | step :: path, t =>
      match t.get? step with
      | none => do
          let inner ← updateAt change path []
          return t ++ [(step, .table .implied inner)]
      | some (.table .inline _) => none
      | some (.table kind inner) => do
          let inner ← updateAt change path inner
          return t.set step (.table kind inner)
      | some (.tables items) => do
          let inner ← updateAt change path (items.getLast?.getD [])
          return t.set step (.tables (items.dropLast ++ [inner]))
      | some _ => none

/-- Give a key the table of a header. Nothing may be there but a table
that was passed through. -/
def declare (k : Key) (t : Table) : Option Table :=
  match t.get? k with
  | none => some (t ++ [(k, .table .header [])])
  | some (.table .implied inner) => some (t.set k (.table .header inner))
  | some _ => none

/-- Give a key one more of its repeated tables. -/
def declareNext (k : Key) (t : Table) : Option Table :=
  match t.get? k with
  | none => some (t ++ [(k, .tables [[]])])
  | some (.tables items) => some (t.set k (.tables (items ++ [[]])))
  | some _ => none

end Table

end Upkeep.Toml
