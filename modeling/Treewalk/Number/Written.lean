import Treewalk.Number.Read

/-!
# Numbers as text

Two forms of a number. `Number.written` is the shortest decimal with a point or an exponent always in
it, as token listings show it; it tells -0 from 0. `Number.display` is what a program prints: a whole
number has all its digits and no point, and every other number is as in the first form.

Every decimal that may stand for a number is tested by reading its text back, so the text of a number is by
construction the text of no other.
-/

namespace Treewalk.Number

/-- Where a decimal is written with its point in place, and how wide its exponent is otherwise. -/
structure Layout where
  /-- The least exponent of a first digit that is written in place. -/
  least : Int
  /-- The greatest exponent of a first digit that is written in place. -/
  greatest : Int
  /-- The least number of digits of a written exponent. -/
  exponentWidth : Nat

/-- Numbers from 0.0001 on and below 10000000000000000 have their point in place, and an exponent has
at least two digits. -/
def layout : Layout := ⟨-4, 15, 2⟩

/-- A text of zeros. -/
def zeros (count : Nat) : List Char := List.replicate count '0'

/-- Digits with a point after the first `count` of them; one zero stands for an empty side. -/
def pointed (digits : List Char) (count : Nat) : List Char :=
  let fraction := digits.drop count
  digits.take count ++ zeros (count - digits.length) ++ '.' ::
    (if fraction = [] then ['0'] else fraction)

/-- An exponent with its sign, padded with zeros to a width. -/
def signedExponent (width : Nat) (exponent : Int) : List Char :=
  let digits := Nat.toDigits 10 exponent.natAbs
  (if exponent < 0 then '-' else '+') :: (zeros (width - digits.length) ++ digits)

/-- A decimal as text, in a layout. -/
def Layout.text (form : Layout) (d : Decimal) : List Char :=
  let d := d.stripped (digitCount d.digits)
  let digits := Nat.toDigits 10 d.digits
  let lead := d.exponent + digits.length - 1
  if lead < form.least ∨ form.greatest < lead then
    let mantissa := match digits with
      | first :: second :: more => first :: '.' :: second :: more
      | short => short
    mantissa ++ 'e' :: signedExponent form.exponentWidth lead
  else if lead < 0 then '0' :: '.' :: (zeros (lead.natAbs - 1) ++ digits)
  else pointed digits (lead.toNat + 1)

/-- Whether a text without sign reads back as a number. -/
def readsBack (x : Float) (text : List Char) : Bool :=
  (decimal? text).any fun d => d.toFloat.toBits = x.toBits

/-- A positive number of value `f` as text. A number for which no decimal reads back, and there is none,
would be shown by its bits. -/
def positiveChars (x : Float) (f : Fraction) : List Char :=
  match f.shortest? fun d => readsBack x (layout.text d) with
  | some d => layout.text d
  | none => '0' :: 'x' :: Nat.toDigits 16 x.toBits.toNat

/-- A minus sign for a negative number. -/
def sign (negative : Bool) : List Char := if negative then ['-'] else []

/-- The characters of `written`. -/
def writtenChars (x : Float) : List Char :=
  match parts x with
  | .notANumber => "nan".toList
  | .infinite negative => sign negative ++ "inf".toList
  | .finite negative 0 _ => sign negative ++ "0.0".toList
  | .finite negative significand exponent =>
    sign negative ++
      positiveChars (if negative then -x else x) (Fraction.ofBinary significand exponent)

/-- The characters of `display`. -/
def displayChars (x : Float) : List Char :=
  match parts x with
  | .finite negative significand exponent =>
    let f := Fraction.ofBinary significand exponent
    if f.numerator = 0 then ['0']
    else if f.numerator % f.denominator = 0 then
      sign negative ++ Nat.toDigits 10 (f.numerator / f.denominator)
    else writtenChars x
  | _ => writtenChars x

/-- The shortest text that reads back as the number, with a point or an exponent always in it. -/
def written (x : Float) : String := String.ofList (writtenChars x)

/-- What a program prints for a number. -/
def display (x : Float) : String := String.ofList (displayChars x)

end Treewalk.Number
