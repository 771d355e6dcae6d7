import Upkeep.Text.Blank

/-!
# Strings of a TOML text

TOML writes a string in four ways: basic strings with escapes, literal
strings without, and both across several lines. Every reader below is
given the text behind the opening quotes and returns the string with the
text behind the closing ones.

Across lines, every line break is read as one line feed, a line break
right behind the opening quotes is left out, and up to two quotes may
stand directly before the closing three. A backslash at the end of a line
joins it with the next character that is not blank.
-/

namespace Upkeep.Toml

/-- A reader takes a value off the front of a text. -/
abbrev Reader (α : Type) := Text → Option (α × Text)

/-! ## Characters -/

def isSpace (c : Char) : Bool := c == ' ' || c == '\t'

/-- Characters that may stand in a comment or a string: no control
characters but the tab. -/
def isPlain (c : Char) : Bool := c == '\t' || (0x20 ≤ c.toNat && c.toNat != 0x7F)

def skipSpace (s : Text) : Text := s.dropWhile isSpace

/-- The text behind a line break, if it starts with one. -/
def lineBreak? : Text → Option Text
  | '\n' :: s => some s
  | '\r' :: '\n' :: s => some s
  | _ => none

def hexDigit? (c : Char) : Option Nat :=
  if '0' ≤ c && c ≤ '9' then some (c.toNat - '0'.toNat)
  else if 'a' ≤ c && c ≤ 'f' then some (c.toNat - 'a'.toNat + 10)
  else if 'A' ≤ c && c ≤ 'F' then some (c.toNat - 'A'.toNat + 10)
  else none

/-- The character with the given hexadecimal code point, if there is one. -/
def codePoint? (digits : List Char) : Option Char := do
  let n ← digits.foldlM (fun n c => (hexDigit? c).map (16 * n + ·)) 0
  if n < 0xD800 || (0xE000 ≤ n && n ≤ 0x10FFFF) then some (Char.ofNat n) else none

/-- The character that a backslash and one more character stand for. -/
def shortEscape? : Char → Option Char
  | 'b' => some (Char.ofNat 0x08)
  | 't' => some '\t'
  | 'n' => some '\n'
  | 'f' => some (Char.ofNat 0x0C)
  | 'r' => some '\r'
  | '"' => some '"'
  | '\\' => some '\\'
  | _ => none

/-- Put characters in front of what was read. -/
def before (front : Text) (r : Option (Text × Text)) : Option (Text × Text) :=
  r.map fun x => (front ++ x.1, x.2)

/-! ## Strings on one line -/

def basic : Reader Text
  | [] => none
  | '"' :: s => some ([], s)
  | '\\' :: 'u' :: a :: b :: c :: d :: s =>
      match codePoint? [a, b, c, d] with
      | some x => before [x] (basic s)
      | none => none
  | '\\' :: 'U' :: a :: b :: c :: d :: e :: f :: g :: h :: s =>
      match codePoint? [a, b, c, d, e, f, g, h] with
      | some x => before [x] (basic s)
      | none => none
  | '\\' :: e :: s =>
      match shortEscape? e with
      | some x => before [x] (basic s)
      | none => none
  | c :: s => if isPlain c && c != '\\' then before [c] (basic s) else none

def literal : Reader Text
  | [] => none
  | '\x27' :: s => some ([], s)
  | c :: s => if isPlain c then before [c] (literal s) else none

/-! ## Strings across lines -/

/-- The rest of a basic string across lines. While `joining`, blank
characters are passed over. -/
def basicLines (joining : Bool) : Reader Text
  | [] => none
  | '"' :: '"' :: '"' :: '"' :: '"' :: s => some (['"', '"'], s)
  | '"' :: '"' :: '"' :: '"' :: s => some (['"'], s)
  | '"' :: '"' :: '"' :: s => some ([], s)
  | '\n' :: s => if joining then basicLines true s else before ['\n'] (basicLines false s)
  | '\r' :: '\n' :: s => if joining then basicLines true s else before ['\n'] (basicLines false s)
  | '\\' :: 'u' :: a :: b :: c :: d :: s =>
      match codePoint? [a, b, c, d] with
      | some x => before [x] (basicLines false s)
      | none => none
  | '\\' :: 'U' :: a :: b :: c :: d :: e :: f :: g :: h :: s =>
      match codePoint? [a, b, c, d, e, f, g, h] with
      | some x => before [x] (basicLines false s)
      | none => none
  | '\\' :: e :: s =>
      match shortEscape? e with
      | some x => before [x] (basicLines false s)
      | none =>
          if (lineBreak? (skipSpace (e :: s))).isSome then basicLines true s else none
  | c :: s =>
      if joining && isSpace c then basicLines true s
      else if isPlain c && c != '\\' then before [c] (basicLines false s)
      else none

def literalLines : Reader Text
  | [] => none
  | '\x27' :: '\x27' :: '\x27' :: '\x27' :: '\x27' :: s => some (['\x27', '\x27'], s)
  | '\x27' :: '\x27' :: '\x27' :: '\x27' :: s => some (['\x27'], s)
  | '\x27' :: '\x27' :: '\x27' :: s => some ([], s)
  | '\n' :: s => before ['\n'] (literalLines s)
  | '\r' :: '\n' :: s => before ['\n'] (literalLines s)
  | c :: s => if isPlain c then before [c] (literalLines s) else none

/-- The text behind opening quotes of a string across lines. -/
def dropFirstBreak (s : Text) : Text := (lineBreak? s).getD s

/-- A string in any of the four ways, its opening quotes included. -/
def string : Reader Text
  | '"' :: '"' :: '"' :: s => basicLines false (dropFirstBreak s)
  | '\x27' :: '\x27' :: '\x27' :: s => literalLines (dropFirstBreak s)
  | '"' :: s => basic s
  | '\x27' :: s => literal s
  | _ => none

end Upkeep.Toml
