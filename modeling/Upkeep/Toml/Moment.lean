import Upkeep.Toml.Number

/-!
# Dates and times of a TOML text

A date, a time of day, or both, the latter with an optional offset from
universal time. All fields have a fixed number of digits and are checked
against the calendar; a minute may have a sixty-first second.
-/

namespace Upkeep.Toml

/-- A number of exactly `k` digits, so far worth `n`. -/
def fixedDigits : (k n : Nat) → Reader Nat
  | 0, n, s => some (n, s)
  | _ + 1, _, [] => none
  | k + 1, n, c :: s =>
      if isDigit c then fixedDigits k (10 * n + (hexDigit? c).getD 0) s else none

/-- A number of exactly `k` digits between `low` and `high`. -/
def field (k low high : Nat) (s : Text) : Option (Nat × Text) := do
  let (n, rest) ← fixedDigits k 0 s
  if low ≤ n && n ≤ high then some (n, rest) else none

def char (c : Char) : Text → Option Text
  | [] => none
  | x :: s => if x = c then some s else none

def isLeapYear (year : Nat) : Bool :=
  year % 4 == 0 && (year % 100 != 0 || year % 400 == 0)

def daysIn (year month : Nat) : Nat :=
  if month == 2 then if isLeapYear year then 29 else 28
  else if month == 4 || month == 6 || month == 9 || month == 11 then 30
  else 31

def date (s : Text) : Option Text := do
  let (year, s) ← fixedDigits 4 0 s
  let s ← char '-' s
  let (month, s) ← field 2 1 12 s
  let s ← char '-' s
  let (_, s) ← field 2 1 (daysIn year month) s
  return s

/-- The text behind the fraction of a second, if there is one. -/
def secondFraction : Text → Text
  | '.' :: c :: s => if isDigit c then s.dropWhile isDigit else '.' :: c :: s
  | s => s

def timeOfDay (s : Text) : Option Text := do
  let (_, s) ← field 2 0 23 s
  let s ← char ':' s
  let (_, s) ← field 2 0 59 s
  let s ← char ':' s
  let (_, s) ← field 2 0 60 s
  return secondFraction s

/-- The text behind an offset, if there is one. A sign has to be followed
by hours and minutes. -/
def offset (s : Text) : Option Text :=
  match s with
  | 'Z' :: t | 'z' :: t => some t
  | '+' :: t | '-' :: t => do
      let (_, t) ← field 2 0 23 t
      let t ← char ':' t
      let (_, t) ← field 2 0 59 t
      return t
  | _ => some s

/-- A time of day and an offset may follow a date behind this character. -/
def isTimeMark (c : Char) : Bool := c == 'T' || c == 't' || c == ' '

/-- The text behind the time that may follow a date. -/
def timeAfterDate (s : Text) : Option Text :=
  match s with
  | [] => some []
  | c :: t =>
      if isTimeMark c then
        match timeOfDay t with
        | some rest => offset rest
        | none => some s
      else some s

/-- A date, a time of day, or both, as it is written. -/
def moment (s : Text) : Option (Text × Text) :=
  match date s with
  | some t => (timeAfterDate t).map fun rest => (consumed s rest, rest)
  | none => (timeOfDay s).map fun rest => (consumed s rest, rest)

end Upkeep.Toml
