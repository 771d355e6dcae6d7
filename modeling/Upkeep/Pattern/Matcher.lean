import Upkeep.Pattern.Parse

/-!
# Matchers

A list of pieces with an anchor compiles into a *matcher*. At a place of
a text the matcher looks at one parse only, the preferred one.

The gaps of a matcher are guarded. A gap behind the first anchor, the
*lead*, may not contain the lead, and no gap may contain the anchor that
most closely precedes it. A preferred parse that breaks this rule would
join the head of one block with the tail of another, and the place is
given up.

A text is scanned from left to right (`Matcher.findFrom`). Where the
preferred parse exists and respects the guards it is recorded and the
scan goes on at its end; everywhere else the scan moves on by one
character. `Matcher.findAll` does this with the row of preferred parses
of the text, and `findAll_eq_findFrom` says that it finds the same.
-/

namespace Upkeep

/-! ## Compilation -/

/-- Why a list of pieces or a list of rules is refused. -/
inductive PatternError where
  /-- No piece is long enough to be an anchor. -/
  | noAnchor (rule : String)
  /-- A gap allows more lines than a matcher can count. -/
  | tooLarge (rule : String)
  /-- What one rule writes is matched by a rule of the same set. -/
  | reapplies (rule matchedBy : String)
  deriving Repr, DecidableEq

def PatternError.message : PatternError → String
  | .noAnchor rule =>
      s!"rule `{rule}` has no literal anchor of at least {Piece.anchorLength} characters"
  | .tooLarge rule =>
      s!"rule `{rule}` compiled to an invalid regex: Compiled regex exceeds size limit of " ++
        "10485760 bytes."
  | .reapplies rule matchedBy =>
      s!"replacement of rule `{rule}` is matched by rule `{matchedBy}`"

/-- A piece together with the texts it may not contain. -/
structure GuardedPiece where
  piece : Piece
  banned : List Text
  deriving Repr, DecidableEq

/-- A compiled pattern. -/
structure Matcher where
  /-- The first anchor. -/
  lead : Text
  parts : List GuardedPiece
  deriving Repr, DecidableEq

namespace Matcher

/-- The texts a gap may not contain, given the lead and the nearest
anchor before the gap. -/
def bannedAfter (lead : Text) : Option Text → List Text
  | none => []
  | some a => if a = lead then [lead] else [lead, a]

/-- Pair every gap with the texts banned from it. `last` is the nearest
anchor before the pieces. -/
def guarded (lead : Text) (last : Option Text) : List Piece → List GuardedPiece
  | [] => []
  | piece :: pieces =>
      if piece.isGap then ⟨piece, bannedAfter lead last⟩ :: guarded lead last pieces
      else ⟨piece, []⟩ :: guarded lead (piece.anchor?.or last) pieces

/-- The largest number of lines a gap may be bounded by. It stands for a
limit of 10 MiB on a compiled pattern, which all its gaps reach together,
and a little earlier. -/
def maxGapLines : Nat := 10000

/-- A gap bounded by more lines than a matcher can count. -/
def isTooLarge : Piece → Bool
  | .gapWithin n => maxGapLines < n
  | _ => false

/-- Compile a list of pieces. The rule's name only appears in errors. -/
def compile (rule : String) (pieces : List Piece) : Except PatternError Matcher :=
  match pieces.findSome? Piece.anchor? with
  | none => .error (.noAnchor rule)
  | some lead =>
      if pieces.any isTooLarge then .error (.tooLarge rule)
      else .ok ⟨lead, guarded lead none pieces⟩

def pieces (m : Matcher) : List Piece := m.parts.map (·.piece)

/-! ## Matching -/

/-- Some piece of the parse contains a text that is banned from it. -/
def crosses : List GuardedPiece → Text → List Nat → Bool
  | part :: parts, t, w :: ws =>
      part.banned.any (Text.contains · (t.take w)) || crosses parts (t.drop w) ws
  | _, _, _ => false

/-- The width of a parse that respects the guards, given the text it
parses the front of. -/
def uncrossed? (m : Matcher) (t : Text) (parse : Option (List Nat)) : Option Nat :=
  match parse with
  | none => none
  | some ws => if crosses m.parts t ws then none else some (parseWidth ws)

/-- The width of the match at a place: that of the preferred parse, if
the parse respects the guards. -/
def width? (m : Matcher) (p : Place) : Option Nat :=
  m.uncrossed? p.rest (preferred p m.pieces)

end Matcher

/-- A stretch of a text, from character `start` up to but not including
character `stop`. -/
structure Span where
  start : Nat
  stop : Nat
  deriving Repr, DecidableEq

/-- The stretch in bytes of the text's UTF-8 form. -/
def Span.inBytes (t : Text) (s : Span) : Nat × Nat :=
  (Text.byteSize (t.take s.start), Text.byteSize (t.take s.stop))

namespace Matcher

/-- Scan `rest`, which starts at character `pos` of the text, after
passing over `covered` characters of the match found last. -/
def findFrom (m : Matcher) (before : Option Char) (pos covered : Nat) : Text → List Span
  | [] => []
  | c :: t =>
      match covered with
      | k + 1 => findFrom m (some c) (pos + 1) k t
      | 0 =>
          match m.width? ⟨before, c :: t⟩ with
          | some w => ⟨pos, pos + w⟩ :: findFrom m (some c) (pos + 1) (w - 1) t
          | none => findFrom m (some c) (pos + 1) 0 t

/-- The same scan with the preferred parses of the places of `rest`. -/
def findIn (m : Matcher) (pos covered : Nat) : Text → List Delayed → List Span
  | [], _ => []
  | _ :: _, [] => []
  | c :: t, parse :: row =>
      match covered with
      | k + 1 => findIn m (pos + 1) k t row
      | 0 =>
          match m.uncrossed? (c :: t) parse.get with
          | some w => ⟨pos, pos + w⟩ :: findIn m (pos + 1) (w - 1) t row
          | none => findIn m (pos + 1) 0 t row

/-- All matches in a text, from left to right. -/
def findAll (m : Matcher) (t : Text) : List Span :=
  m.findIn 0 0 t (preferredRow (Place.start t) m.pieces)

theorem findIn_eq_findFrom (m : Matcher) (before : Option Char) (pos covered : Nat) (t : Text)
    {row : List Delayed}
    (h : row.map Thunk.get = (Place.onwards before t).map (preferred · m.pieces)) :
    m.findIn pos covered t row = m.findFrom before pos covered t := by
  induction t generalizing before pos covered row with
  | nil => simp [findIn, findFrom]
  | cons c t ih =>
      cases row with
      | nil => simp [Place.onwards] at h
      | cons parse row =>
          simp only [Place.onwards, List.map_cons, List.cons.injEq] at h
          cases covered with
          | succ k => exact ih (some c) (pos + 1) k h.2
          | zero =>
              simp only [findIn, findFrom, width?, h.1]
              split
              · rw [ih (some c) _ _ h.2]
              · exact ih (some c) _ _ h.2

/-- The matches are those of the plain scan. -/
theorem findAll_eq_findFrom (m : Matcher) (t : Text) : m.findAll t = m.findFrom none 0 0 t :=
  findIn_eq_findFrom m none 0 0 t (get_preferredRow (Place.start t) m.pieces)

/-- The matcher matches somewhere in the text. -/
def isMatch (m : Matcher) (t : Text) : Bool := !(m.findAll t).isEmpty

end Matcher

end Upkeep
