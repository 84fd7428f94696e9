import Treewalk.Number.Written
import Treewalk.Proofs.Number.Magnitude
import Treewalk.Proofs.Text.Quoted

/-!
# Numbers as text

What is displayed for a magnitude is one of three texts (`DisplayedAs`), which can be told from one another by
their characters, and each tells the number. So no two magnitudes are displayed alike (`display_inj`).
-/

namespace Treewalk.Number

/-! ## Decimals -/

/-- The characters that decimals are written with. -/
def isDecimalChar (c : Char) : Bool := c.isDigit || ['.', 'e', '+', '-'].contains c

/-- A text begins with a digit and holds characters of decimals only, not all of them digits. -/
structure IsDecimalText (text : List Char) : Prop where
  starts : text.head?.any Char.isDigit = true
  chars : ∀ c ∈ text, isDecimalChar c = true
  marked : ∃ c ∈ text, c.isDigit = false

/-- Decimals are digits. -/
theorem isDigit_toDigits {n : Nat} {c : Char} (h : c ∈ Nat.toDigits 10 n) : c.isDigit = true :=
  Nat.isDigit_of_mem_toDigits (by decide) (by decide) h

/-- Padding consists of digits. -/
theorem isDigit_zeros {count : Nat} {c : Char} (h : c ∈ zeros count) : c.isDigit = true :=
  List.eq_of_mem_replicate h ▸ rfl

/-- Digits may stand in a decimal text. -/
theorem isDecimalChar_of_isDigit {c : Char} (h : c.isDigit = true) : isDecimalChar c = true := by
  simp [isDecimalChar, h]

/-- Digits stand before a point or an `e`, and characters of decimals after it. -/
theorem isDecimalText_append {digits text : List Char} {mark : Char} (hne : digits ≠ [])
    (hdigits : ∀ c ∈ digits, c.isDigit = true) (hmark : mark = '.' ∨ mark = 'e')
    (htext : ∀ c ∈ text, isDecimalChar c = true) : IsDecimalText (digits ++ mark :: text) := by
  refine ⟨?_, ?_, mark, by simp, by obtain rfl | rfl := hmark <;> rfl⟩
  · obtain ⟨c, digits, rfl⟩ := List.exists_cons_of_ne_nil hne
    exact hdigits c (by simp)
  · refine List.forall_mem_append.2 ⟨fun c hc => isDecimalChar_of_isDigit (hdigits c hc), ?_⟩
    exact List.forall_mem_cons.2 ⟨by obtain rfl | rfl := hmark <;> rfl, htext⟩

/-- So may what an exponent is written with. -/
theorem isDecimalChar_signedExponent {width : Nat} {e : Int} {c : Char} (h : c ∈ signedExponent width e) :
    isDecimalChar c = true := by
  unfold signedExponent at h
  rcases List.mem_cons.1 h with rfl | h
  · split <;> rfl
  · exact isDecimalChar_of_isDigit ((List.mem_append.1 h).elim isDigit_zeros isDigit_toDigits)

/-- In each of its forms a decimal has a point or an exponent. -/
theorem isDecimalText_text (form : Layout) (d : Decimal) : IsDecimalText (form.text d) := by
  unfold Layout.text
  simp only
  generalize d.stripped (digitCount d.digits) = d
  have hne : Nat.toDigits 10 d.digits ≠ [] := Nat.toDigits_ne_nil
  have hdigits : ∀ c ∈ Nat.toDigits 10 d.digits, c.isDigit = true := fun c => isDigit_toDigits
  generalize Nat.toDigits 10 d.digits = digits at hne hdigits ⊢
  split
  -- With an exponent: a point follows the first digit, unless this is the only one.
  · split
    case h_1 first second more _ =>
      have hdigits := List.forall_mem_cons.1 hdigits
      change IsDecimalText ([first] ++ '.' :: (second :: more ++ 'e' :: signedExponent _ _))
      refine isDecimalText_append (List.cons_ne_nil first []) (by simpa using hdigits.1) (.inl rfl) ?_
      refine List.forall_mem_append.2 ⟨fun c hc => isDecimalChar_of_isDigit (hdigits.2 c hc), ?_⟩
      exact List.forall_mem_cons.2 ⟨rfl, fun c => isDecimalChar_signedExponent⟩
    case h_2 => exact isDecimalText_append hne hdigits (.inr rfl) fun c => isDecimalChar_signedExponent
  -- With the point in place: before the digits, or among them.
  · split
    · exact isDecimalText_append (List.cons_ne_nil '0' []) (by simp) (.inl rfl) fun c hc =>
        isDecimalChar_of_isDigit ((List.mem_append.1 hc).elim isDigit_zeros (hdigits c))
    · refine isDecimalText_append ?_ ?_ (.inl rfl) ?_
      · simp [hne]
      · intro c hc
        exact (List.mem_append.1 hc).elim (fun hc => hdigits c (List.mem_of_mem_take hc)) isDigit_zeros
      · intro c hc
        split at hc
        · rw [List.mem_singleton.1 hc]
          rfl
        · exact isDecimalChar_of_isDigit (hdigits c (List.mem_of_mem_drop hc))

/-! ## The text of a magnitude -/

/-- What is displayed for a number: the digits of its value, a decimal that reads back as the number, or its
bits. -/
inductive DisplayedAs (x : Float) : List Char → Prop
  | whole {s e n} : parts x = .finite false s e → s * 2 ^ (e + 1074).toNat = n * 2 ^ 1074 →
      DisplayedAs x (Nat.toDigits 10 n)
  | decimal {d} : readsBack x (layout.text d) = true → DisplayedAs x (layout.text d)
  | bits : DisplayedAs x ('0' :: 'x' :: Nat.toDigits 16 x.toBits.toNat)

/-- A positive number is written as its shortest fraction, whichever way the point is placed. -/
theorem displayedAs_positiveChars (x : Float) (f : Fraction) : DisplayedAs x (positiveChars x f) := by
  unfold positiveChars
  split
  case h_1 h => exact .decimal (Fraction.mayStand_of_shortest? h)
  case h_2 => exact .bits

/-- A whole quotient of a magnitude is its value. -/
theorem value_ofBinary {s n : Nat} {e : Int} (he : -1074 ≤ e)
    (h : (Fraction.ofBinary s e).numerator = (Fraction.ofBinary s e).denominator * n) :
    s * 2 ^ (e + 1074).toNat = n * 2 ^ 1074 := by
  unfold Fraction.ofBinary at h
  simp only [Nat.pow_eq] at h
  split at h
  -- A negative exponent divides, any other one multiplies; both sides are scaled to the smallest one.
  case isTrue hneg =>
    obtain rfl : s = 2 ^ e.natAbs * n := h
    have hsum : 1074 = e.natAbs + (e + 1074).toNat := by omega
    calc _ = n * 2 ^ (e.natAbs + (e + 1074).toNat) := by ring
      _ = n * 2 ^ 1074 := by rw [← hsum]
  case isFalse hpos =>
    obtain rfl : s * 2 ^ e.natAbs = n := h.trans (Nat.one_mul n)
    have hsum : (e + 1074).toNat = e.natAbs + 1074 := by omega
    rw [hsum, pow_add, mul_assoc]

/-- What is displayed for a magnitude is one of the three texts. -/
theorem displayedAs_displayChars {x : Float} (h : IsMagnitude x) : DisplayedAs x (displayChars x) := by
  obtain ⟨s, e, h⟩ := h
  have he := (toBits_of_parts h).1.le
  unfold displayChars writtenChars
  simp only [h]
  split
  -- Zero and other whole numbers are written with their digits, the others as fractions.
  case isTrue hzero => exact .whole (n := 0) h (value_ofBinary he hzero)
  case isFalse hne =>
    split
    case isTrue hwhole =>
      have hdvd := Nat.dvd_of_mod_eq_zero hwhole
      exact .whole h (value_ofBinary he (Nat.mul_div_cancel' hdvd).symm)
    case isFalse =>
      cases s with
      | zero => exact absurd (by unfold Fraction.ofBinary; split <;> simp) hne
      | succ s => exact displayedAs_positiveChars x _

/-- The characters that numbers are displayed with. -/
def isNumberChar (c : Char) : Bool := c.isAlphanum || c = '.' || c = '+' || c = '-'

/-- What may stand in a decimal text may stand in a number. -/
theorem isNumberChar_of_isDecimalChar {c : Char} (h : isDecimalChar c = true) : isNumberChar c = true := by
  simp only [isDecimalChar, isNumberChar, Char.isAlphanum, Bool.or_eq_true, List.contains_eq_mem,
    List.mem_cons, List.not_mem_nil, decide_eq_true_eq] at h ⊢
  obtain h | rfl | rfl | rfl | h := h
  · simp [h]
  · simp
  · simp
  · simp
  · simp_all

/-- Hexadecimals are letters and digits. -/
theorem isAlphanum_toDigits {n : Nat} {c : Char} (h : c ∈ Nat.toDigits 16 n) : c.isAlphanum = true := by
  -- There are sixteen digits to look at.
  have hdigit : ∀ d < 16, d.digitChar.isAlphanum = true := by decide
  induction n using Nat.strongRecOn with
  | ind n ih =>
    rw [Nat.toDigits_eq_if (by decide)] at h
    split at h
    case isTrue hlt =>
      rw [List.mem_singleton.1 h]
      exact hdigit n hlt
    case isFalse hge =>
      rcases List.mem_append.1 h with h | h
      · exact ih (n / 16) (by omega) h
      · rw [List.mem_singleton.1 h]
        exact hdigit _ (Nat.mod_lt n (by decide))

/-- Either way a text begins with a digit and holds nothing but what numbers are written with. -/
theorem DisplayedAs.chars {x : Float} {text : List Char} (h : DisplayedAs x text) :
    text.head?.any Char.isDigit = true ∧ ∀ c ∈ text, isNumberChar c = true := by
  cases h with
  | @whole s e n =>
    constructor
    · obtain ⟨c, digits, h⟩ := List.exists_cons_of_ne_nil (@Nat.toDigits_ne_nil n 10)
      rw [h]
      exact isDigit_toDigits (n := n) (by simp [h])
    · exact fun c hc => isNumberChar_of_isDecimalChar (isDecimalChar_of_isDigit (isDigit_toDigits hc))
  | @decimal d =>
    have htext := isDecimalText_text layout d
    exact ⟨htext.starts, fun c hc => isNumberChar_of_isDecimalChar (htext.chars c hc)⟩
  -- Bits are a zero, an `x` and hexadecimals.
  | bits =>
    refine ⟨rfl, List.forall_mem_cons.2 ⟨rfl, List.forall_mem_cons.2 ⟨rfl, fun c hc => ?_⟩⟩⟩
    simp [isNumberChar, isAlphanum_toDigits hc]

/-- What is displayed of a number begins with a digit. -/
theorem head_display {x : Float} (h : IsMagnitude x) : (display x).toList.head?.any Char.isDigit = true := by
  rw [display, String.toList_ofList]
  exact (displayedAs_displayChars h).chars.1

/-- What is displayed of a number has no other characters than numbers have. -/
theorem all_display {x : Float} (h : IsMagnitude x) : (display x).toList.all isNumberChar = true := by
  rw [display, String.toList_ofList, List.all_eq_true]
  exact (displayedAs_displayChars h).chars.2

/-- A text that reads back as two numbers reads back as one. -/
theorem readsBack_unique {x y : Float} {text : List Char} (hx : readsBack x text = true)
    (hy : readsBack y text = true) : x = y := by
  unfold readsBack at hx hy
  cases h : decimal? text with
  | none => simp [h] at hx
  | some d =>
    simp only [h, Option.any_some, decide_eq_true_eq] at hx hy
    exact Float.toBits_inj.1 (hx.symm.trans hy)

/-- Digits alone are not written as a decimal is. -/
theorem not_isDecimalText_toDigits (n : Nat) : ¬ IsDecimalText (Nat.toDigits 10 n) := by
  rintro ⟨-, -, c, hc, hmarked⟩
  exact absurd (isDigit_toDigits hc) (Bool.eq_false_iff.1 hmarked)

/-- Bits are no decimals, as they have an `x` in them. -/
theorem not_isDecimalText_bits (digits : List Char) : ¬ IsDecimalText ('0' :: 'x' :: digits) :=
  fun h => absurd (h.chars 'x' (by simp)) (by decide)

/-- Whole numbers do not look like bits either. -/
theorem toDigits_ne_bits (n : Nat) (digits : List Char) : Nat.toDigits 10 n ≠ '0' :: 'x' :: digits :=
  fun h => absurd (isDigit_toDigits (n := n) (c := 'x') (by simp [h])) (by decide)

/-- A text is displayed for one number only. -/
theorem DisplayedAs.unique {x y : Float} {text text' : List Char} (hx : DisplayedAs x text)
    (hy : DisplayedAs y text') (h : text = text') : x = y := by
  cases hx with
  | whole hx hvaluex =>
    cases hy with
    | whole hy hvaluey =>
      -- The same digits are the same value.
      obtain rfl := Text.toDigits_injective (by decide) (by decide) h
      obtain ⟨rfl, rfl⟩ :=
        (toBits_of_parts hx).1.unique (toBits_of_parts hy).1 (hvaluex.trans hvaluey.symm)
      exact eq_of_parts hx hy
    | decimal => exact absurd (h ▸ isDecimalText_text ..) (not_isDecimalText_toDigits _)
    | bits => exact (toDigits_ne_bits _ _ h).elim
  | decimal hx =>
    cases hy with
    | whole => exact absurd (h ▸ isDecimalText_text ..) (not_isDecimalText_toDigits _)
    | decimal hy => exact readsBack_unique hx (h ▸ hy)
    | bits => exact absurd (h ▸ isDecimalText_text ..) (not_isDecimalText_bits _)
  | bits =>
    cases hy with
    | whole => exact (toDigits_ne_bits _ _ h.symm).elim
    | decimal => exact absurd (h ▸ isDecimalText_text ..) (not_isDecimalText_bits _)
    | bits =>
      have hbits := Text.toDigits_injective (by decide) (by decide) (List.cons.inj (List.cons.inj h).2).2
      exact Float.toBits_inj.1 (UInt64.toNat_inj.1 hbits)

/-- No two magnitudes are displayed alike. -/
theorem display_inj {x y : Float} (hx : IsMagnitude x) (hy : IsMagnitude y) (h : display x = display y) :
    x = y := by
  have hchars : displayChars x = displayChars y := by
    simpa [display, String.ofList_inj] using h
  exact (displayedAs_displayChars hx).unique (displayedAs_displayChars hy) hchars

end Treewalk.Number
