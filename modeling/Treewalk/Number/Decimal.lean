/-!
# Decimals and binary numbers

A `Decimal` is a whole number of units of a power of ten, and `Decimal.toFloat` is the binary number
nearest to it. In the other direction, a binary number is exactly a whole number of units of a power
of two (`parts`), and `Fraction.shortest?` picks the decimal that stands for it: with the fewest digits
among those that may, and among these the nearest to it.
-/

namespace Treewalk

/-- The number `digits * 10 ^ exponent`. -/
structure Decimal where
  digits : Nat
  exponent : Int
deriving DecidableEq, Repr

/-- Whether a decimal is `2 ^ 1024` at least, as its digits tell at once: each place behind the point
takes less than four bits of them. No finite number is so great. -/
def Decimal.isBeyond (d : Decimal) : Bool := 1024 + 4 * (-d.exponent).toNat ≤ d.digits.log2

/-- The binary number nearest to a decimal; a tie goes to the even neighbour. -/
def Decimal.toFloat (d : Decimal) : Float :=
  if d.isBeyond then 1.0 / 0.0
  else Float.ofScientific d.digits (decide (d.exponent < 0)) d.exponent.natAbs

/-- The same decimal without the zeros that end its digits. Its first argument bounds how many of them
are dropped. -/
def Decimal.stripped : Nat → Decimal → Decimal
  | 0, d => d
  | bound + 1, d =>
    if d.digits % 10 = 0 then stripped bound ⟨d.digits / 10, d.exponent + 1⟩ else d

/-- What the bits of a binary number say: it is not a number, or it has a sign and is infinite or a
whole number of units of a power of two. -/
inductive Parts where
  | notANumber
  | infinite (negative : Bool)
  | finite (negative : Bool) (significand : Nat) (exponent : Int)
deriving DecidableEq, Repr

/-- The value of the bit that tells negative numbers. -/
def signBit : Nat := 0x8000000000000000

/-- The value of the bit before the 52 bits of a significand. -/
def hiddenBit : Nat := 0x10000000000000

/-- Takes the bits of a number apart: a sign, eleven bits of exponent, and 52 bits of significand,
before which stands a further bit unless the exponent is the least. -/
def parts (x : Float) : Parts :=
  let bits := x.toBits.toNat
  let negative := decide (signBit ≤ bits)
  let exponent : Nat := bits / hiddenBit % 0x800
  let significand := bits % hiddenBit
  if exponent = 0x7FF then
    if significand = 0 then .infinite negative else .notANumber
  else if exponent = 0 then .finite negative significand (-1074)
  else .finite negative (hiddenBit + significand) ((exponent : Int) - 1075)

/-- A fraction of two natural numbers. -/
structure Fraction where
  numerator : Nat
  denominator : Nat
deriving DecidableEq, Repr

/-- The value `significand * 2 ^ exponent` as a fraction. -/
def Fraction.ofBinary (significand : Nat) (exponent : Int) : Fraction :=
  let power := Nat.pow 2 exponent.natAbs
  if exponent < 0 then ⟨significand, power⟩ else ⟨significand * power, 1⟩

/-- The number of decimal digits of a positive natural number. -/
def digitCount (n : Nat) : Nat := (Nat.toDigits 10 n).length

/-- The exponent of the power of ten that is the greatest one not above a positive fraction. -/
def Fraction.decimalExponent (f : Fraction) : Int :=
  if f.denominator ≤ f.numerator then (digitCount (f.numerator / f.denominator) : Int) - 1
  else
    -- The least `j` such that `10 ^ j` times the fraction is at least 1.
    -(digitCount ((f.denominator + f.numerator - 1) / f.numerator - 1) : Int)

/-- The two neighbours of a fraction among the multiples of `10 ^ exponent`, the nearer first. Of two
equally near ones the even one comes first. -/
def Fraction.neighbours (f : Fraction) (exponent : Int) : Decimal × Decimal :=
  let power := Nat.pow 10 exponent.natAbs
  let scaled : Fraction :=
    if exponent < 0 then ⟨f.numerator * power, f.denominator⟩
    else ⟨f.numerator, f.denominator * power⟩
  let below := scaled.numerator / scaled.denominator
  let twice := 2 * (scaled.numerator % scaled.denominator)
  if twice < scaled.denominator ∨ (twice = scaled.denominator ∧ below % 2 = 0) then
    (⟨below, exponent⟩, ⟨below + 1, exponent⟩)
  else (⟨below + 1, exponent⟩, ⟨below, exponent⟩)

/-- The decimal with the fewest digits, from `count` on and with at most `more` further ones, that may
stand for a fraction, the nearest to it, where `lead` is the exponent of the first digit. -/
def Fraction.shortestFrom (f : Fraction) (mayStand : Decimal → Bool) (lead : Int) :
    Nat → Nat → Option Decimal
  | 0, _ => none
  | more + 1, count =>
    let (near, far) := f.neighbours (lead + 1 - count)
    if mayStand near then some near
    else if mayStand far then some far
    else shortestFrom f mayStand lead more (count + 1)

/-- The shortest decimal that may stand for a positive fraction, the nearest of them to it. No more than
17 digits are tried, as no binary number needs more. -/
def Fraction.shortest? (f : Fraction) (mayStand : Decimal → Bool) : Option Decimal :=
  f.shortestFrom mayStand f.decimalExponent 17 1

/-- Whatever `shortestFrom` picks may stand for the fraction. -/
theorem Fraction.mayStand_of_shortestFrom {f : Fraction} {mayStand : Decimal → Bool} {lead : Int}
    {more count : Nat} {d : Decimal} (h : f.shortestFrom mayStand lead more count = some d) :
    mayStand d = true := by
  induction more generalizing count with
  | zero => simp [shortestFrom] at h
  | succ more ih =>
    simp only [shortestFrom] at h
    split at h
    · next hnear => exact Option.some.inj h ▸ hnear
    · split at h
      · next hfar => exact Option.some.inj h ▸ hfar
      · exact ih h

/-- Whatever `shortest?` picks may stand for the fraction. -/
theorem Fraction.mayStand_of_shortest? {f : Fraction} {mayStand : Decimal → Bool} {d : Decimal}
    (h : f.shortest? mayStand = some d) : mayStand d = true :=
  mayStand_of_shortestFrom h

end Treewalk
