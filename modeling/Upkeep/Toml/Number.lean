import Upkeep.Toml.Quoted

/-!
# Numbers of a TOML text

Integers are decimal with an optional sign, or hexadecimal, octal or
binary without one, and have to fit into sixty-four bits. Single
underscores may stand between digits. A number with a fraction or an
exponent is a float; one that is too large for a double is refused unless
it is negative.
-/

namespace Upkeep.Toml

/-! ## Digits -/

def isDigit (c : Char) : Bool := '0' ≤ c && c ≤ '9'

def isHexDigit (c : Char) : Bool := (hexDigit? c).isSome

def isOctDigit (c : Char) : Bool := '0' ≤ c && c ≤ '7'

def isBinDigit (c : Char) : Bool := c == '0' || c == '1'

/-- Further digits of a number, without the underscores between them. An
underscore has to be followed by a digit. -/
def moreDigits (ok : Char → Bool) : Reader Text
  | [] => some ([], [])
  | ['_'] => none
  | '_' :: c :: s => if ok c then before [c] (moreDigits ok s) else none
  | c :: s => if ok c then before [c] (moreDigits ok s) else some ([], c :: s)

def digits (ok : Char → Bool) : Reader Text
  | [] => none
  | c :: s => if ok c then before [c] (moreDigits ok s) else none

/-- The number that digits of a base stand for. -/
def ofDigits (base : Nat) (ds : Text) : Nat :=
  ds.foldl (fun n c => base * n + (hexDigit? c).getD 0) 0

/-! ## Integers -/

def maxInteger : Nat := Nat.pow 2 63 - 1

/-- The integer of a given sign and size, if it fits. -/
def integer? (negative : Bool) (n : Nat) : Option Int :=
  if negative then if n ≤ maxInteger + 1 then some (-(n : Int)) else none
  else if n ≤ maxInteger then some (n : Int)
  else none

/-- An integer written with digits of a base. -/
def basedInteger (base : Nat) (ok : Char → Bool) (s : Text) : Option (Int × Text) := do
  let (ds, rest) ← digits ok s
  let n ← integer? false (ofDigits base ds)
  return (n, rest)

/-! ## Floats -/

/-- The least number that rounds to no finite double: half a unit above
the largest one. -/
def overflowBound : Nat := Nat.pow 2 1024 - Nat.pow 2 970

/-- `ds` times ten to the power of `up - down` is too large for a double.
Powers of ten are only computed near the bound. -/
def overflows (ds : Text) (up down : Nat) : Bool :=
  let significant := ds.dropWhile (· == '0')
  let size := significant.length + up
  if significant.isEmpty || size ≤ 308 + down then false
  else if 310 + down ≤ size then true
  else overflowBound * Nat.pow 10 down ≤ ofDigits 10 significant * Nat.pow 10 up

/-- The digits behind a point. Without a point there are none. -/
def fraction : Reader Text
  | '.' :: s => digits isDigit s
  | s => some ([], s)

def sign : Text → Bool × Text
  | '-' :: s => (true, s)
  | '+' :: s => (false, s)
  | s => (false, s)

/-- An exponent: whether it is negative, and its digits. Without an
exponent the digits are missing. -/
def exponent (s : Text) : Option ((Bool × Text) × Text) :=
  match s with
  | 'e' :: t | 'E' :: t => do
      let (negative, t) := sign t
      let (ds, rest) ← digits isDigit t
      return ((negative, ds), rest)
  | _ => some ((false, []), s)

/-- The whole part of a decimal number: zero alone, or digits of which
the first is not zero. -/
def wholePart : Reader Text
  | '0' :: s => some (['0'], s)
  | s => digits isDigit s

/-- A number: an integer, or the text of a float. -/
inductive Number where
  | integer (n : Int)
  | float (text : Text)
  deriving Repr, DecidableEq

/-- What was read of `s` when `rest` is left. -/
def consumed (s rest : Text) : Text := s.take (s.length - rest.length)

def decimal (s : Text) : Option (Number × Text) := do
  let (negative, t) := sign s
  let (whole, afterWhole) ← wholePart t
  let (frac, afterFrac) ← fraction afterWhole
  let ((expNegative, exp), rest) ← exponent afterFrac
  if frac.isEmpty && exp.isEmpty then
    let n ← integer? negative (ofDigits 10 whole)
    return (.integer n, rest)
  else
    let power := ofDigits 10 exp
    let up := if expNegative then 0 else power
    let down := frac.length + if expNegative then power else 0
    if !negative && overflows (whole ++ frac) up down then none
    else return (.float (consumed s rest), rest)

/-- A float that is no number or not finite. -/
def specialFloat (s : Text) : Option (Number × Text) :=
  match (sign s).2 with
  | 'i' :: 'n' :: 'f' :: rest => some (.float (consumed s rest), rest)
  | 'n' :: 'a' :: 'n' :: rest => some (.float (consumed s rest), rest)
  | _ => none

def number (s : Text) : Option (Number × Text) :=
  match s with
  | '0' :: 'x' :: t => (basedInteger 16 isHexDigit t).map fun r => (.integer r.1, r.2)
  | '0' :: 'o' :: t => (basedInteger 8 isOctDigit t).map fun r => (.integer r.1, r.2)
  | '0' :: 'b' :: t => (basedInteger 2 isBinDigit t).map fun r => (.integer r.1, r.2)
  | _ =>
      match specialFloat s with
      | some r => some r
      | none => decimal s

end Upkeep.Toml
