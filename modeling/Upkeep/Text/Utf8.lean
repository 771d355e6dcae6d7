import Upkeep.Text.Blank

/-!
# UTF-8

Files hold bytes, patterns work on characters. `Utf8.decode` reads bytes
as text and, where they are no text, says where the first fault lies:
after how many good bytes, and whether the bytes merely stop too early or
begin a sequence that nothing can complete. Reading undoes writing
(`decode_encode`).

The fault is found by walking over well-formed sequences. A sequence is
told by its first byte, and only the second byte of a sequence is
restricted further: it may not make the sequence overlong, a surrogate or
larger than the largest code point.
-/

namespace Upkeep

namespace Text

def byteSize : Text → Nat
  | [] => 0
  | c :: t => c.utf8Size + byteSize t

theorem byteSize_append (s t : Text) : byteSize (s ++ t) = byteSize s + byteSize t := by
  induction s with
  | nil => exact (Nat.zero_add _).symm
  | cons c s ih => rw [List.cons_append, byteSize, byteSize, ih, Nat.add_assoc]

end Text

namespace Utf8

/-- Where and how bytes fail to be UTF-8. -/
inductive Fault where
  /-- A sequence of `length` bytes, after `good` good ones, that nothing can complete. -/
  | invalid (length good : Nat)
  /-- The bytes end within a sequence that starts after `good` good ones. -/
  | incomplete (good : Nat)
  deriving Repr, DecidableEq

def Fault.message : Fault → String
  | .invalid length good => s!"invalid utf-8 sequence of {length} bytes from index {good}"
  | .incomplete good => s!"incomplete utf-8 byte sequence from index {good}"

/-- The length of the sequences that start with a byte, and the second
bytes they may have. No sequence starts with the other bytes. -/
def shape? (b : UInt8) : Option (Nat × UInt8 × UInt8) :=
  if b ≤ 0x7F then some (1, 0x80, 0xBF)
  else if 0xC2 ≤ b && b ≤ 0xDF then some (2, 0x80, 0xBF)
  else if b == 0xE0 then some (3, 0xA0, 0xBF)
  else if b == 0xED then some (3, 0x80, 0x9F)
  else if 0xE1 ≤ b && b ≤ 0xEF then some (3, 0x80, 0xBF)
  else if b == 0xF0 then some (4, 0x90, 0xBF)
  else if 0xF1 ≤ b && b ≤ 0xF3 then some (4, 0x80, 0xBF)
  else if b == 0xF4 then some (4, 0x80, 0x8F)
  else none

/-- Look for the `missing` further bytes of a sequence of which `seen`
bytes are good; the next one has to lie between `low` and `high`. -/
def tailFault? (good : Nat) : (missing seen : Nat) → (low high : UInt8) → List UInt8 → Option Fault
  | 0, _, _, _, _ => none
  | _ + 1, _, _, _, [] => some (.incomplete good)
  | missing + 1, seen, low, high, b :: bs =>
      if low ≤ b && b ≤ high then tailFault? good missing (seen + 1) 0x80 0xBF bs
      else some (.invalid seen good)

/-- The first fault, if there is one. `good` bytes precede; `inside` of
the next bytes belong to a sequence that has been looked at. -/
def faultFrom? (good inside : Nat) : List UInt8 → Option Fault
  | [] => none
  | b :: bs =>
      match inside with
      | k + 1 => faultFrom? (good + 1) k bs
      | 0 =>
          match shape? b with
          | none => some (.invalid 1 good)
          | some (length, low, high) =>
              match tailFault? good (length - 1) 1 low high bs with
              | some fault => some fault
              | none => faultFrom? (good + 1) (length - 1) bs

def encode (t : Text) : List UInt8 := t.flatMap String.utf8EncodeChar

/-- The text that bytes spell, or their first fault. -/
def decode (bytes : List UInt8) : Except Fault Text :=
  match String.fromUTF8? bytes.toByteArray with
  | some s => .ok s.toList
  | none => .error ((faultFrom? 0 0 bytes).getD (.incomplete bytes.length))

theorem encode_append (s t : Text) : encode (s ++ t) = encode s ++ encode t := List.flatMap_append

theorem length_encode (t : Text) : (encode t).length = Text.byteSize t := by
  induction t with
  | nil => rfl
  | cons c t ih =>
      rw [Text.byteSize, ← ih, encode, List.flatMap_cons, List.length_append,
        String.length_utf8EncodeChar]
      rfl

theorem toByteArray_encode (t : Text) : (encode t).toByteArray = (String.ofList t).toByteArray := by
  simp [encode, List.utf8Encode]

/-- What was written as UTF-8 is read back. -/
theorem decode_encode (t : Text) : decode (encode t) = .ok t := by
  have valid : (String.ofList t).toByteArray.IsValidUTF8 := (String.ofList t).isValidUTF8
  rw [decode, toByteArray_encode, String.fromUTF8?, dif_pos valid]
  exact congrArg Except.ok String.toList_ofList

end Utf8

end Upkeep
