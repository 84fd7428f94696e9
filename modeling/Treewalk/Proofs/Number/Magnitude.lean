import Mathlib
import Treewalk.Number.Decimal

/-!
# Magnitudes

The finite binary numbers whose sign bit is not set. Such a number is its significand and its exponent, and
these are its value (`IsNormal.unique`). A decimal has no sign, and so no sign bit is set in the binary
number nearest to it: it is a magnitude if it is finite (`isMagnitude_toFloat`).
-/

namespace Treewalk.Number

open Float.Model (Format UnpackedFloat)
open Float.Model.UnpackedFloat

/-- A number is finite and its sign bit is not set. -/
def IsMagnitude (x : Float) : Prop :=
  ∃ significand exponent, parts x = .finite false significand exponent

/-! ## Significands and exponents -/

/-- A significand has 53 bits, and it has fewer only under the least exponent. -/
structure IsNormal (significand : Nat) (exponent : Int) : Prop where
  lt : significand < 2 * hiddenBit
  le : -1074 ≤ exponent
  least : significand < hiddenBit → exponent = -1074

/-- The bits of a magnitude are those of its significand, above which its exponent is counted. -/
theorem toBits_of_parts {x : Float} {s : Nat} {e : Int} (h : parts x = .finite false s e) :
    IsNormal s e ∧ x.toBits.toNat = s + (e + 1074).toNat * hiddenBit := by
  have hbits : x.toBits.toNat < 2 ^ 64 := x.toBits.toNat_lt
  unfold parts at h
  simp only at h
  split at h
  · split at h <;> cases h
  · split at h <;> obtain ⟨hsign, rfl, rfl⟩ := Parts.finite.inj h <;>
      have hunsigned := of_decide_eq_false hsign <;> simp only [signBit, hiddenBit] at *
    · exact ⟨⟨by simp only [hiddenBit]; omega, le_rfl, fun _ => rfl⟩, by omega⟩
    · exact ⟨⟨by simp only [hiddenBit]; omega, by omega, by simp only [hiddenBit]; omega⟩, by omega⟩

/-- A magnitude is its significand and its exponent. -/
theorem eq_of_parts {x y : Float} {s : Nat} {e : Int} (hx : parts x = .finite false s e)
    (hy : parts y = .finite false s e) : x = y :=
  Float.toBits_inj.1 (UInt64.toNat_inj.1 ((toBits_of_parts hx).2.trans (toBits_of_parts hy).2.symm))

/-- Of two significands with the same value, none has a lesser exponent than the other. -/
theorem IsNormal.exponent_le {s t : Nat} {e f : Int} (hs : IsNormal s e) (ht : IsNormal t f)
    (h : s * 2 ^ (e + 1074).toNat = t * 2 ^ (f + 1074).toNat) : f ≤ e := by
  obtain ⟨hslt, hsle, -⟩ := hs
  obtain ⟨-, -, htleast⟩ := ht
  by_contra hlt
  -- With a lesser exponent, the significand of `s` is that of `t` at least once doubled. But `t`, whose
  -- exponent is not the least, has all of its 53 bits.
  have hsplit : (f + 1074).toNat = (e + 1074).toNat + 1 + ((f - e).toNat - 1) := by omega
  have hcancel : s = t * 2 * 2 ^ ((f - e).toNat - 1) := by
    refine Nat.eq_of_mul_eq_mul_right (Nat.two_pow_pos (e + 1074).toNat) (h.trans ?_)
    rw [hsplit]
    ring
  have hdouble : t * 2 * 1 ≤ s := hcancel ▸ Nat.mul_le_mul_left _ Nat.one_le_two_pow
  have := htleast (by omega)
  omega

/-- The value of a magnitude, in units of the least power of two, tells its significand and its
exponent. -/
theorem IsNormal.unique {s t : Nat} {e f : Int} (hs : IsNormal s e) (ht : IsNormal t f)
    (h : s * 2 ^ (e + 1074).toNat = t * 2 ^ (f + 1074).toNat) : s = t ∧ e = f := by
  obtain rfl : e = f := le_antisymm (ht.exponent_le hs h.symm) (hs.exponent_le ht h)
  exact ⟨Nat.eq_of_mul_eq_mul_right (Nat.two_pow_pos _) h, rfl⟩

/-! ## Sign bits -/

/-- The sign bit of a number is not set. -/
def IsUnsigned (x : Float) : Prop := @unpackSign Format.binary64 x.toModel.toBits.toBitVec = 0#1

/-- No minus sign stands before an unpacked number. -/
def LacksMinus : UnpackedFloat → Prop
  | .notANumber => True
  | .infinity sign | .zero sign | .finite sign _ _ _ => sign = .positive

/-- Bits whose sign is zero are unpacked to a number without a minus. -/
theorem lacksMinus_unpack {b : BitVec 64} (h : @unpackSign Format.binary64 b = 0#1) :
    LacksMinus (unpack Format.binary64 b) := by
  unfold unpack
  simp only [h]
  split_ifs
  all_goals first | rfl | trivial

/-- A number without a minus is packed without one. -/
theorem LacksMinus.pack {u : UnpackedFloat} (hu : LacksMinus u) : IsUnsigned (.ofModel (.pack u)) := by
  have hcomponents := @unpackSign_packComponents Format.binary64 .positive
  change unpackSign (UnpackedFloat.pack Format.binary64 u) = _
  cases u with
  | notANumber => exact hcomponents _ _
  | infinity | zero =>
    cases hu
    exact hcomponents _ _
  -- Whatever a finite number is packed to, its sign is that of the components.
  | finite =>
    cases hu
    unfold UnpackedFloat.pack
    simp only
    split_ifs
    all_goals exact hcomponents _ _

/-- Rounding keeps the sign. -/
theorem lacksMinus_roundWithAccuracy (spec : Format) (m : Nat) (e : Int) (accuracy : Accuracy) :
    LacksMinus (roundWithAccuracy spec .positive m e accuracy) := by
  unfold roundWithAccuracy
  simp only
  split <;> rfl

/-- A product has a minus only if a factor has. -/
theorem LacksMinus.mul {spec : Format} {u v : UnpackedFloat} (hu : LacksMinus u) (hv : LacksMinus v) :
    LacksMinus (UnpackedFloat.mul spec u v) := by
  cases u <;> cases v <;> simp only [LacksMinus] at hu hv <;> subst_vars <;>
    first | rfl | trivial | exact lacksMinus_roundWithAccuracy ..

/-- So has a quotient. -/
theorem LacksMinus.div {spec : Format} {u v : UnpackedFloat} (hu : LacksMinus u) (hv : LacksMinus v) :
    LacksMinus (UnpackedFloat.div spec u v) := by
  cases u <;> cases v <;> simp only [LacksMinus] at hu hv <;> subst_vars <;>
    first | rfl | trivial | exact lacksMinus_roundWithAccuracy ..

/-- A natural number has none. -/
theorem lacksMinus_ofNat (spec : Format) (n : Nat) : LacksMinus (UnpackedFloat.ofNat spec n) := by
  unfold UnpackedFloat.ofNat UnpackedFloat.ofInt UnpackedFloat.normalize
  split
  case h_1 h => exact absurd (compare_lt_iff_lt.1 h) (by omega)
  case h_2 => rfl
  case h_3 => exact lacksMinus_roundWithAccuracy ..

/-- Nor have digits that are scaled by a power of ten: all steps multiply, divide and round. -/
theorem lacksMinus_ofScientific (spec : Format) (m : Nat) (e : Int) :
    LacksMinus (UnpackedFloat.ofScientific spec m e) := by
  unfold UnpackedFloat.ofScientific
  split_ifs
  · rfl
  · rfl
  · rfl
  · exact LacksMinus.mul rfl rfl
  · exact LacksMinus.div rfl rfl

/-- The powers of ten in the table have none. They are few, so each is looked at. -/
theorem isUnsigned_power (e : Fin 23) : IsUnsigned Float.exactlyRepresentablePowersOfTen[e] := by
  unfold IsUnsigned
  revert e
  decide +kernel

/-- What is read from digits has no minus. -/
theorem isUnsigned_ofScientific (m : Nat) (negative : Bool) (e : Nat) :
    IsUnsigned (Float.ofScientific m negative e) := by
  unfold Float.ofScientific
  split
  case isTrue h =>
    have hm : LacksMinus m.toUInt64.toFloat.toModel.unpack :=
      lacksMinus_unpack (lacksMinus_ofNat Format.binary64 m.toUInt64.toNat).pack
    have hpower := lacksMinus_unpack (isUnsigned_power ⟨e, by omega⟩)
    split
    · exact (hm.div hpower).pack
    · exact (hm.mul hpower).pack
  case isFalse => exact (lacksMinus_ofScientific ..).pack

/-! ## Decimals -/

/-- No sign bit is set in the binary number nearest to a decimal. -/
theorem isUnsigned_toFloat (d : Decimal) : IsUnsigned d.toFloat := by
  unfold Decimal.toFloat
  split
  · exact ((lacksMinus_unpack (isUnsigned_ofScientific 10 true 1)).div
      (lacksMinus_unpack (isUnsigned_ofScientific 0 true 1))).pack
  · exact isUnsigned_ofScientific ..

/-- Without a sign the bits are below the sign bit. -/
theorem IsUnsigned.toBits_lt {x : Float} (h : IsUnsigned x) : x.toBits.toNat < signBit := by
  have hbit : x.toModel.toBits.toNat / 2 ^ 63 % 2 = 0 := by
    simpa [unpackSign, BitVec.extractLsb_toNat, Nat.shiftRight_eq_div_pow] using congrArg BitVec.toNat h
  have hbits := x.toModel.toBits.toNat_lt
  change x.toModel.toBits.toNat < signBit
  simp only [signBit]
  omega

/-- The bits of the exponent of a finite number are not all set. -/
theorem exponent_ne_of_isFinite {x : Float} (h : x.isFinite = true) :
    x.toBits.toNat / hiddenBit % 0x800 ≠ 0x7FF := by
  intro hall
  -- Such bits are unpacked to an infinity or to what is not a number.
  have hones : @unpackExponent Format.binary64 x.toModel.toBits.toBitVec = -1#11 := by
    apply BitVec.eq_of_toNat_eq
    simp [unpackExponent, BitVec.extractLsb_toNat, Nat.shiftRight_eq_div_pow]
    exact hall
  have hinfinite : x.toModel.unpack.isFinite = false := by
    unfold Float.Model.unpack unpack
    simp only
    rw [if_pos hones]
    split <;> rfl
  exact absurd h (Bool.eq_false_iff.1 hinfinite)

/-- The binary number nearest to a decimal is a magnitude, if it is finite. -/
theorem isMagnitude_toFloat {d : Decimal} (h : d.toFloat.isFinite = true) : IsMagnitude d.toFloat := by
  unfold IsMagnitude parts
  simp only
  rw [if_neg (exponent_ne_of_isFinite h), decide_eq_false (Nat.not_le.2 (isUnsigned_toFloat d).toBits_lt)]
  split
  · exact ⟨_, _, rfl⟩
  · exact ⟨_, _, rfl⟩

end Treewalk.Number
