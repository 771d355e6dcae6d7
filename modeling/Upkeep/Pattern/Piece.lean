import Upkeep.Text.Utf8
import Upkeep.Text.Word

/-!
# Pieces of a pattern

A pattern is a list of *pieces*, each of which covers a stretch of the
text. What a piece may cover depends on the place where it starts: the
text that follows, and, for a keyword, the character just before.

The stretches open to a piece are told by their widths, best first
(`Piece.widths`): an optional text is rather present than absent,
whitespace is rather long than short, and a gap is rather short than
long. Everything the matcher decides comes from these lists.
-/

namespace Upkeep

/-- A place in a text: the character just before it, if any, and the text
that follows. -/
structure Place where
  before : Option Char
  rest : Text
  deriving Repr, DecidableEq

namespace Place

def start (t : Text) : Place := ⟨none, t⟩

/-- The place `n` characters further on, or the end of the text. -/
def skip : Place → Nat → Place
  | p, 0 => p
  | ⟨b, []⟩, _ + 1 => ⟨b, []⟩
  | ⟨_, c :: t⟩, n + 1 => skip ⟨some c, t⟩ n

@[simp] theorem skip_zero (p : Place) : p.skip 0 = p := by
  rw [skip]

theorem rest_skip (p : Place) (n : Nat) : (p.skip n).rest = p.rest.drop n := by
  fun_induction skip p n with
  | case1 => rfl
  | case2 => rfl
  | case3 b c t n ih => rw [ih, List.drop_succ_cons]

/-- A word begins or ends at this place. -/
def atBoundary (p : Place) : Bool := Text.isBoundary p.before p.rest.head?

end Place

inductive Piece where
  /-- Exactly this text. -/
  | literal (text : Text)
  /-- Exactly this word, with a word boundary on both sides. -/
  | keyword (word : Text)
  /-- This text or nothing. -/
  | optional (text : Text)
  /-- Blank characters, none included. -/
  | space
  /-- At least one blank character. -/
  | someSpace
  /-- Blank characters with a line break among them. -/
  | lineBreak
  /-- Anything, across lines. -/
  | gap
  /-- Anything with at most this many line breaks. -/
  | gapWithin (lines : Nat)
  deriving Repr, DecidableEq

namespace Piece

/-- The length of the longest front of `t` with at most `lines` line
breaks. -/
def reach : (lines : Nat) → Text → Nat
  | _, [] => 0
  | 0, c :: t => if c = '\n' then 0 else reach 0 t + 1
  | n + 1, c :: t => if c = '\n' then reach n t + 1 else reach (n + 1) t + 1

/-- The numbers from `low` up to and including `high`, the largest first. -/
def downTo (low high : Nat) : List Nat :=
  ((List.range (high + 1)).filter (low ≤ ·)).reverse

/-- The widths a piece may have at a place, in order of preference. -/
def widths (p : Place) : Piece → List Nat
  | literal t => if t.isPrefixOf p.rest then [t.length] else []
  | keyword w =>
      if w.isPrefixOf p.rest && p.atBoundary && (p.skip w.length).atBoundary then [w.length]
      else []
  | optional t => if t.isPrefixOf p.rest then [t.length, 0] else [0]
  | space => downTo 0 (p.rest.takeWhile Text.isBlank).length
  | someSpace => downTo 1 (p.rest.takeWhile Text.isBlank).length
  | lineBreak =>
      let run := p.rest.takeWhile Text.isBlank
      downTo ((run.takeWhile (· ≠ '\n')).length + 1) run.length
  | gap => List.range (p.rest.length + 1)
  | gapWithin n => List.range (reach n p.rest + 1)

def isGap : Piece → Bool
  | gap | gapWithin _ => true
  | _ => false

/-- The least number of characters that make a text an anchor. -/
def anchorLength : Nat := 6

/-- The text of a piece that is specific enough to recognise a block by. -/
def anchor? : Piece → Option Text
  | literal t | keyword t => if anchorLength ≤ t.length then some t else none
  | _ => none

end Piece

end Upkeep
