/-!
# UTF-8

`decodeUtf8` reads bytes as UTF-8 and, where they are not, says which bytes are at fault and why. At
fault is the first byte that begins no character, or the longest stretch that begins one and is not
completed. `unifiedLines` then ends every line in a line feed.
-/

namespace Treewalk.Text

/-- Why bytes are not the beginning of a character. -/
inductive Utf8Fault where
  | invalidStart
  | invalidContinuation
  | endOfData
deriving DecidableEq, Repr

/-- The stretch of bytes at fault, from position `start` on and up to but not including `stop`, of
which `first` is the first byte. -/
structure Utf8Error where
  fault : Utf8Fault
  first : UInt8
  start : Nat
  stop : Nat
deriving DecidableEq, Repr

/-- Whether a byte goes on with a character. -/
def isContinuation (b : UInt8) : Bool := 0x80 ≤ b && b < 0xC0

/-- How many bytes follow the first byte of a character, and the range of the second byte. The ranges
leave out code points that have a shorter form, the surrogates, and those above the last one. -/
def continuation? (b : UInt8) : Option (Nat × UInt8 × UInt8) :=
  if b < 0xC2 then none
  else if b < 0xE0 then some (1, 0x80, 0xBF)
  else if b = 0xE0 then some (2, 0xA0, 0xBF)
  else if b = 0xED then some (2, 0x80, 0x9F)
  else if b < 0xF0 then some (2, 0x80, 0xBF)
  else if b = 0xF0 then some (3, 0x90, 0xBF)
  else if b < 0xF4 then some (3, 0x80, 0xBF)
  else if b = 0xF4 then some (3, 0x80, 0x8F)
  else none

/-- How many of the bytes that follow the first byte of a character go on with it, up to `count`,
where `least` and `greatest` bound the second byte. -/
def continuationLength (count : Nat) (least greatest : UInt8) : List UInt8 → Nat
  | [] => 0
  | b :: bytes =>
    if 0 < count ∧ least ≤ b ∧ b ≤ greatest then
      1 + ((bytes.take (count - 1)).takeWhile isContinuation).length
    else 0

/-- The bits that the first byte of a character with `count` further bytes adds to its code point. -/
def leadBits (count : Nat) (b : UInt8) : Nat := b.toNat % Nat.pow 2 (6 - count)

/-- The code point of a character from its bytes. -/
def codePoint (count : Nat) (b : UInt8) (more : List UInt8) : Nat :=
  more.foldl (fun n c => n * 64 + c.toNat % 64) (leadBits count b)

/-- The first character of the bytes `b :: bytes`, which begin at `position`, and its length. -/
def decodeOne (position : Nat) (b : UInt8) (bytes : List UInt8) : Except Utf8Error (Char × Nat) :=
  if b < 0x80 then .ok (Char.ofNat b.toNat, 0)
  else
    match continuation? b with
    | none => .error ⟨.invalidStart, b, position, position + 1⟩
    | some (count, least, greatest) =>
      let length := continuationLength count least greatest bytes
      if length = count then .ok (Char.ofNat (codePoint count b (bytes.take count)), count)
      else if length = bytes.length then .error ⟨.endOfData, b, position, position + 1 + length⟩
      else .error ⟨.invalidContinuation, b, position, position + 1 + length⟩

/-- The characters of bytes that begin at `position`, after the characters read so far, the last of
them first. -/
def decodeFrom (position : Nat) (read : List Char) :
    List UInt8 → Except Utf8Error (List Char)
  | [] => .ok read.reverse
  | b :: bytes =>
    match decodeOne position b bytes with
    | .ok (c, more) => decodeFrom (position + 1 + more) (c :: read) (bytes.drop more)
    | .error e => .error e
termination_by bytes => bytes.length
decreasing_by simp only [List.length_drop, List.length_cons]; omega

/-- The characters of bytes in UTF-8. -/
def decodeUtf8 (bytes : List UInt8) : Except Utf8Error (List Char) := decodeFrom 0 [] bytes

/-- A text whose lines end in a line feed, where they may end in a carriage return or in both. -/
def unifiedLines : List Char → List Char
  | '\r' :: '\n' :: cs => '\n' :: unifiedLines cs
  | '\r' :: cs => '\n' :: unifiedLines cs
  | c :: cs => c :: unifiedLines cs
  | [] => []

end Treewalk.Text
