import Treewalk.Text.Printable

/-!
# Quoted strings

The form in which a string is shown between quotes. The quote is `'`, or `"` for a string that holds
`'` and no `"`. A backslash stands before the quote in use and before a backslash, the three usual
control characters have a letter each, and any other unprintable character is written by its code
point in two, four or eight hexadecimal digits, the fewest that hold it.
-/

namespace Treewalk.Text

/-- The lower-case hexadecimal digits of a number, padded with zeros to a width. -/
def hexDigits (width n : Nat) : List Char :=
  let digits := Nat.toDigits 16 n
  List.replicate (width - digits.length) '0' ++ digits

/-- What stands for one character of a string inside the given quote. -/
def escaped (quote c : Char) : List Char :=
  if c = quote ∨ c = '\\' then ['\\', c]
  else if c = '\n' then ['\\', 'n']
  else if c = '\r' then ['\\', 'r']
  else if c = '\t' then ['\\', 't']
  else if isPrintable c then [c]
  else if c.toNat < 0x100 then '\\' :: 'x' :: hexDigits 2 c.toNat
  else if c.toNat < 0x10000 then '\\' :: 'u' :: hexDigits 4 c.toNat
  else '\\' :: 'U' :: hexDigits 8 c.toNat

/-- The quote that encloses a string. -/
def enclosingQuote (text : List Char) : Char :=
  if '\'' ∈ text ∧ '"' ∉ text then '"' else '\''

/-- A string between quotes. -/
def quotedChars (text : List Char) : List Char :=
  let quote := enclosingQuote text
  quote :: text.flatMap (escaped quote) ++ [quote]

/-- A string between quotes. -/
def quoted (text : String) : String := String.ofList (quotedChars text.toList)

example : quotedChars ['a', '\n', '"'] = ['\'', 'a', '\\', 'n', '"', '\''] := by decide +kernel

example : quotedChars ['\'', 'é', '\u2028'] =
    ['"', '\'', 'é', '\\', 'u', '2', '0', '2', '8', '"'] := by decide +kernel

end Treewalk.Text
