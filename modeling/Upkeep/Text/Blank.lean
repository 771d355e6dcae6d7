/-!
# Blank characters

A character is *blank* when Unicode gives it the `White_Space` property:
twenty-five characters, the ASCII control spaces and the line and
paragraph separators among them. Trimming and the whitespace pieces of a
pattern both rest on this one class.
-/

namespace Upkeep

/-- Text as the library reasons about it: a list of characters. -/
abbrev Text := List Char

namespace Text

def isBlank (c : Char) : Bool :=
  let n := c.toNat
  (9 ≤ n && n ≤ 13) || n == 0x20 || n == 0x85 || n == 0xA0 || n == 0x1680
    || (0x2000 ≤ n && n ≤ 0x200A) || n == 0x2028 || n == 0x2029 || n == 0x202F
    || n == 0x205F || n == 0x3000

def trimLeft (t : Text) : Text := t.dropWhile isBlank

def trimRight (t : Text) : Text := (t.reverse.dropWhile isBlank).reverse

def trim (t : Text) : Text := trimRight (trimLeft t)

/-- The rest of `t` after `front`, if `t` starts with it. -/
def dropFront? : (front t : Text) → Option Text
  | [], t => some t
  | _ :: _, [] => none
  | a :: front, c :: t => if a = c then dropFront? front t else none

/-- `part` occurs somewhere in the text. -/
def contains (part : Text) : Text → Bool
  | [] => part.isEmpty
  | c :: t => part.isPrefixOf (c :: t) || contains part t

end Text

end Upkeep
