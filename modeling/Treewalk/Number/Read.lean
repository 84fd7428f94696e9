import Treewalk.Number.Decimal
import Treewalk.Text.Digit

/-!
# Reading numbers

`Number.ofDigits` is the value of a number literal, given by its digits before and after the point.
`Number.decimal?` reads the notation in which numbers are shown, which may have an exponent.
-/

namespace Treewalk.Number

/-- The natural number with the given digits, the greatest place first. -/
def ofDigitValues (digits : List Nat) : Nat := digits.foldl (fun n d => 10 * n + d) 0

/-- The number nearest to the decimal with the given digits before and after its point. -/
def ofDigits (whole fraction : List Nat) : Float :=
  Decimal.toFloat ⟨ofDigitValues (whole ++ fraction), -(fraction.length : Int)⟩

/-- The values of the digits that begin a text, and the rest of the text. -/
def leadingDigits : List Char → List Nat × List Char
  | [] => ([], [])
  | c :: cs =>
    match Text.digitValue? c with
    | none => ([], c :: cs)
    | some d => (d :: (leadingDigits cs).1, (leadingDigits cs).2)

/-- Whether a text begins with a minus, and the text without its sign. -/
def leadingSign : List Char → Bool × List Char
  | '-' :: cs => (true, cs)
  | '+' :: cs => (false, cs)
  | cs => (false, cs)

/-- The exponent that a text consists of; an empty text stands for no exponent. -/
def exponent? : List Char → Option Int
  | [] => some 0
  | c :: cs =>
    if c = 'e' ∨ c = 'E' then
      let (negative, digits) := leadingSign cs
      match leadingDigits digits with
      | ([], _) => none
      | (digits, []) =>
        let n : Int := ofDigitValues digits
        some (if negative then -n else n)
      | _ => none
    else none

/-- The decimal that a text without sign is written as. There is a digit on one side of the point at
least. -/
def decimal? (text : List Char) : Option Decimal :=
  let (whole, rest) := leadingDigits text
  let (fraction, rest) := match rest with
    | '.' :: cs => leadingDigits cs
    | _ => ([], rest)
  if whole = [] ∧ fraction = [] then none
  else (exponent? rest).map fun e => ⟨ofDigitValues (whole ++ fraction), e - fraction.length⟩

end Treewalk.Number
