import Upkeep.Pattern.Piece

/-!
# Expressions

A pattern is handed to the matcher as a regular expression: every piece is
written as one (`Piece.expression`), and the expression of a pattern is
that of its pieces, one after the other.

An expression is read in the way of a matcher that goes back. At a place
it has an ordered list of widths (`Expression.widths`): those that the
matcher reaches when it tries its choices in their order and, whenever the
rest of the pattern fails, takes back the last choice that is still open.
A repetition would rather go on than stop, or rather stop than go on if it
is lazy. A width that is reached in two ways stands in the list twice; of
the two only the first ever matters.

`Piece.widths` tells the same more directly, without expressions.
-/

namespace Upkeep

/-! ## Moving on from a place -/

/-- Some ways to move on from a place, told by their widths, the first to
be tried first. -/
abbrev Step := Place → List Nat

namespace Step

/-- A step and then another. All ways to take the second are tried before
the next way to take the first. -/
def andThen (a b : Step) : Step := fun p => (a p).flatMap fun w => (b (p.skip w)).map (w + ·)

/-- To move on or to stay, which is the last choice, or the first of a lazy
repetition. -/
def orStay (lazy : Bool) (onward : List Nat) : List Nat :=
  if lazy then 0 :: onward else onward ++ [0]

/-- The step up to `n` times. -/
def upTo (lazy : Bool) (step : Step) : (n : Nat) → Step
  | 0 => fun _ => [0]
  | n + 1 => fun p => orStay lazy (step.andThen (upTo lazy step n) p)

/-- The step any number of times. A round that covers nothing is the last;
no round covers more than there is. -/
def many (lazy : Bool) (step : Step) (p : Place) : List Nat :=
  orStay lazy <| (step p).flatMap fun w =>
    if 0 < w ∧ w ≤ p.rest.length then (many lazy step (p.skip w)).map (w + ·) else [w]
termination_by p.rest.length
decreasing_by
  rw [Place.rest_skip, List.length_drop]
  omega

end Step

/-! ## Expressions -/

/-- What stands for one character out of many. -/
inductive Sign where
  /-- A line break, `\n`. -/
  | newLine
  /-- A blank character, `\s`. -/
  | blank
  /-- Any character but a line break, `[^\n]`. -/
  | inLine
  /-- Any character: `.` within the brackets that let it be a line break. -/
  | any
  deriving Repr, DecidableEq

namespace Sign

def accepts : Sign → Char → Bool
  | newLine, c => c = '\n'
  | blank, c => Text.isBlank c
  | inLine, c => c ≠ '\n'
  | any, _ => true

def written : Sign → Text
  | newLine => "\\n".toList
  | blank => "\\s".toList
  | inLine => "[^\\n]".toList
  | any => ".".toList

end Sign

/-- Brackets, which hold an expression together. -/
inductive Bracket where
  | plain
  /-- What they cover can be asked for afterwards. -/
  | capture
  /-- Within them `.` stands for a line break, too. -/
  | dotAll
  deriving Repr, DecidableEq

/-- The opening bracket; all are closed alike. -/
def Bracket.opening : Bracket → Text
  | plain => "(?:".toList
  | capture => "(".toList
  | dotAll => "(?s:".toList

/-- How often an expression may be repeated. -/
inductive Times where
  | atMostOnce
  | any
  | atLeastOnce
  | upTo (n : Nat)
  deriving Repr, DecidableEq

namespace Times

def written : Times → Text
  | atMostOnce => "?".toList
  | any => "*".toList
  | atLeastOnce => "+".toList
  | upTo n => "\x7b0,".toList ++ n.repr.toList ++ "\x7d".toList

def step (lazy : Bool) (once : Step) : Times → Step
  | atMostOnce => once.upTo lazy 1
  | any => once.many lazy
  | atLeastOnce => once.andThen (once.many lazy)
  | upTo n => once.upTo lazy n

end Times

inductive Expression where
  /-- Exactly this text. -/
  | text (t : Text)
  | sign (s : Sign)
  /-- A word boundary, `\b`. -/
  | boundary
  /-- One expression and behind it another. -/
  | follow (a b : Expression)
  | group (bracket : Bracket) (r : Expression)
  | repeated (times : Times) (lazy : Bool) (r : Expression)
  deriving Repr, DecidableEq

namespace Expression

/-- The widths an expression may have at a place, in the order in which
they are reached. -/
def widths : Expression → Step
  | text t, p => if t.isPrefixOf p.rest then [t.length] else []
  | sign s, p => if p.rest.head?.any s.accepts then [1] else []
  | boundary, p => if p.atBoundary then [0] else []
  | follow a b, p => a.widths.andThen b.widths p
  | group _ r, p => r.widths p
  | repeated times lazy r, p => times.step lazy r.widths p

/-- The ends that are reached from character `n` of a text, in order. -/
def endsFrom (r : Expression) (t : Text) (n : Nat) : List Nat :=
  (r.widths ((Place.start t).skip n)).map (n + ·)

/-- The same ends, each where it is reached first. -/
def firstEnds (r : Expression) (t : Text) (n : Nat) : List Nat := (r.endsFrom t n).eraseDups

/-! ## The written form -/

/-- The characters that mean something else in an expression. -/
def specials : Text := "\\.+*?()|[]\x7b\x7d^$#&-~".toList

def escape (c : Char) : Text := if c ∈ specials then ['\\', c] else [c]

def written : Expression → Text
  | text t => t.flatMap escape
  | sign s => s.written
  | boundary => "\\b".toList
  | follow a b => a.written ++ b.written
  | group bracket r => bracket.opening ++ r.written ++ ")".toList
  | repeated times lazy r => r.written ++ times.written ++ if lazy then "?".toList else []

/-! ## The expression of a pattern -/

/-- A sign any number of times. -/
def signs (lazy : Bool) (s : Sign) : Expression := .repeated .any lazy (.sign s)

/-- Blank text, `\s*`. -/
def blanks : Expression := signs false .blank

/-- A line with its break, `[^\n]*\n`. -/
def line : Expression := .follow (signs false .inLine) (.sign .newLine)

/-- At most `n` line breaks, `(?:[^\n]*\n){0,n}?[^\n]*?`. -/
def withinLines (n : Nat) : Expression :=
  .follow (.repeated (.upTo n) true (.group .plain line)) (signs true .inLine)

end Expression

/-- The expression that a piece is written as. -/
def Piece.expression : Piece → Expression
  | literal t => .text t
  | keyword w => .follow .boundary (.follow (.text w) .boundary)
  | optional t => .repeated .atMostOnce false (.group .plain (.text t))
  | space => .blanks
  | someSpace => .repeated .atLeastOnce false (.sign .blank)
  | lineBreak => .follow .blanks (.follow (.sign .newLine) .blanks)
  | gap => .group .capture (.group .dotAll (.signs true .any))
  | gapWithin n => .group .capture (.withinLines n)

def Expression.ofPieces : List Piece → Expression
  | [] => .text []
  | piece :: pieces => .follow piece.expression (ofPieces pieces)

example :
    (Expression.ofPieces [.literal "\x7b%".toList, .optional "-".toList, .space,
        .keyword "endfor".toList, .space, .literal "%\x7d".toList]).written
      = "\\\x7b%(?:\\-)?\\s*\\bendfor\\b\\s*%\\\x7d".toList := by
  decide

end Upkeep
