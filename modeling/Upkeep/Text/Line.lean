import Upkeep.Text.Blank

/-!
# Lines

A text is cut at a separating character into the stretches between its
occurrences. The lines of a text are its stretches between line feeds: a
carriage return right before a line feed belongs to the line's end, and a
line feed at the end of the text starts no further line.
-/

namespace Upkeep.Text

/-- The stretches of a text between the occurrences of a character. There
is always at least one. -/
def cut (sep : Char) : Text → List Text
  | [] => [[]]
  | c :: t =>
      if c = sep then [] :: cut sep t
      else
        match cut sep t with
        | [] => [[c]]
        | first :: rest => (c :: first) :: rest

/-- A text without one carriage return at its end. -/
def dropReturn (t : Text) : Text :=
  if t.getLast? = some '\r' then t.dropLast else t

/-- The lines among the stretches between line feeds. Every stretch but
the last was ended by a line feed. -/
def ofStretches : List Text → List Text
  | [] => []
  | [last] => if last.isEmpty then [] else [last]
  | t :: rest => dropReturn t :: ofStretches rest

/-- The lines of a text, without their ends. -/
def lines (t : Text) : List Text := ofStretches (cut '\n' t)

def ofLines (ls : List Text) : Text := ls.flatMap (· ++ ['\n'])

end Upkeep.Text
