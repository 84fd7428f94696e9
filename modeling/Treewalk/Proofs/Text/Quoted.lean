import Mathlib.Tactic.IntervalCases
import Treewalk.Text.Quoted

/-!
# Quoted strings can be read back

What stands for a character inside quotes can be told from what follows it (`unescape_escaped`), and it
never begins with the quote (`head?_escaped`). So a quoted string ends at the first quote in it that
begins what stands for a character, and a text begins with one quoted string at most
(`quotedChars_append_inj`).
-/

namespace Treewalk.Text

/-! ## Digits -/

/-- The value of a digit, up to the lower-case letters of the base 16. -/
def placeDigit (c : Char) : Nat :=
  if c.toNat < 'a'.toNat then c.toNat - '0'.toNat else c.toNat - 'a'.toNat + 10

/-- A digit stands for the number that it was written for. -/
theorem placeDigit_digitChar {n : Nat} (h : n < 16) : placeDigit n.digitChar = n := by
  interval_cases n <;> rfl

/-- The number that is written with digits in a base. -/
def ofPlaceDigits (base : Nat) (digits : List Char) : Nat :=
  digits.foldl (fun n c => base * n + placeDigit c) 0

variable {base n : Nat}

/-- Digits are undone by their place values, by induction on the number as its digits are. -/
theorem ofPlaceDigits_toDigits (hbase : 1 < base) (hbase' : base ≤ 16) (n : Nat) :
    ofPlaceDigits base (Nat.toDigits base n) = n := by
  induction n using Nat.strongRecOn with
  | _ n ih =>
    by_cases hn : n < base
    · rw [Nat.toDigits_of_lt_base hn]
      simp [ofPlaceDigits, placeDigit_digitChar (Nat.lt_of_lt_of_le hn hbase')]
    -- The last digit is the remainder, and the others are those of the quotient.
    · have hle := Nat.not_lt.1 hn
      have hdiv : n / base < n := Nat.div_lt_self (by omega) hbase
      have hmod : n % base < 16 := Nat.lt_of_lt_of_le (Nat.mod_lt n (by omega)) hbase'
      have hlast := ih (n / base) hdiv
      unfold ofPlaceDigits at hlast ⊢
      rw [Nat.toDigits_of_base_le hbase hle, List.foldl_append, hlast]
      simp only [List.foldl_cons, List.foldl_nil, placeDigit_digitChar hmod]
      exact Nat.div_add_mod n base

/-- Numbers with the same digits are the same. -/
theorem toDigits_injective (hbase : 1 < base) (hbase' : base ≤ 16) :
    Function.Injective (Nat.toDigits base) := by
  intro n m h
  rw [← ofPlaceDigits_toDigits hbase hbase' n, h, ofPlaceDigits_toDigits hbase hbase' m]

/-- Leading zeros count for nothing. -/
theorem ofPlaceDigits_replicate_append (count : Nat) (digits : List Char) :
    ofPlaceDigits base (List.replicate count '0' ++ digits) = ofPlaceDigits base digits := by
  induction count with
  | zero => rfl
  | succ count ih => exact ih

/-- Padded digits stand for the same number. -/
theorem ofPlaceDigits_hexDigits (width n : Nat) : ofPlaceDigits 16 (hexDigits width n) = n :=
  (ofPlaceDigits_replicate_append _ _).trans (ofPlaceDigits_toDigits (by decide) (by decide) n)

/-- Padding fills the width that it is given. -/
theorem length_hexDigits {width : Nat} (hwidth : 0 < width) (h : n < 16 ^ width) :
    (hexDigits width n).length = width := by
  have := (Nat.length_toDigits_le_iff (by decide) hwidth).2 h
  simp only [hexDigits, List.length_append, List.length_replicate]
  omega

/-! ## Characters -/

/-- The character that a text stands for at its beginning, inside quotes, and the rest of the text. -/
def unescape : List Char → Option (Char × List Char)
  | '\\' :: 'n' :: cs => some ('\n', cs)
  | '\\' :: 'r' :: cs => some ('\r', cs)
  | '\\' :: 't' :: cs => some ('\t', cs)
  | '\\' :: 'x' :: cs => some (Char.ofNat (ofPlaceDigits 16 (cs.take 2)), cs.drop 2)
  | '\\' :: 'u' :: cs => some (Char.ofNat (ofPlaceDigits 16 (cs.take 4)), cs.drop 4)
  | '\\' :: 'U' :: cs => some (Char.ofNat (ofPlaceDigits 16 (cs.take 8)), cs.drop 8)
  | '\\' :: c :: cs => some (c, cs)
  | c :: cs => some (c, cs)
  | [] => none

/-- A character can be read back from its code point, written with so many digits. -/
theorem ofNat_hexDigits {width : Nat} (hwidth : 0 < width) {c : Char} (h : c.toNat < 16 ^ width)
    (rest : List Char) :
    (Char.ofNat (ofPlaceDigits 16 ((hexDigits width c.toNat ++ rest).take width)),
      (hexDigits width c.toNat ++ rest).drop width) = (c, rest) := by
  have hlength := length_hexDigits hwidth h
  rw [List.take_append_of_le_length (by rw [hlength]), List.take_of_length_le (by rw [hlength]),
    List.drop_append_of_le_length (by rw [hlength]), List.drop_of_length_le (by rw [hlength]),
    ofPlaceDigits_hexDigits, Char.ofNat_toNat, List.nil_append]

variable {quote : Char}

/-- A character can be told from what stands for it. -/
theorem unescape_escaped (hquote : quote = '\'' ∨ quote = '"') (c : Char) (rest : List Char) :
    unescape (escaped quote c ++ rest) = some (c, rest) := by
  unfold escaped
  split
  -- The quote and the backslash stand after a backslash.
  · next h =>
    have hc : c = '\'' ∨ c = '"' ∨ c = '\\' := by
      obtain rfl | rfl := h
      · exact hquote.imp_right .inl
      · exact .inr (.inr rfl)
    obtain rfl | rfl | rfl := hc <;> rfl
  · next h =>
    split
    · next h => subst h; rfl
    split
    · next h => subst h; rfl
    split
    · next h => subst h; rfl
    split
    · -- A printable character stands for itself.
      have hc : c ≠ '\\' := fun hc => h (.inr hc)
      simp [unescape, hc]
    split
    · next hlt => exact congrArg some (ofNat_hexDigits (by decide) hlt rest)
    split
    · next hlt => exact congrArg some (ofNat_hexDigits (by decide) hlt rest)
    · have hlt : c.toNat < 16 ^ 8 := c.val.toNat_lt
      exact congrArg some (ofNat_hexDigits (by decide) hlt rest)

/-- What stands for a character does not begin with the quote. -/
theorem head?_escaped (hquote : quote = '\'' ∨ quote = '"') (c : Char) (rest : List Char) :
    (escaped quote c ++ rest).head? ≠ some quote := by
  have hne : some '\\' ≠ some quote := by obtain rfl | rfl := hquote <;> decide
  unfold escaped
  split
  · exact hne
  · next h =>
    -- The only character without a backslash before it is one that stands for itself.
    have hself : some c ≠ some quote := fun heq => h (.inl (Option.some.inj heq))
    repeat' split
    all_goals first | exact hne | exact hself

/-! ## Strings -/

/-- A text is enclosed in one of two quotes. -/
theorem enclosingQuote_eq (text : List Char) :
    enclosingQuote text = '\'' ∨ enclosingQuote text = '"' := by
  unfold enclosingQuote
  split
  · exact .inr rfl
  · exact .inl rfl

/-- Characters up to the quote can be told from what stands for them. -/
theorem flatMap_escaped_inj (hquote : quote = '\'' ∨ quote = '"') {text text' rest rest' : List Char}
    (h : text.flatMap (escaped quote) ++ quote :: rest =
      text'.flatMap (escaped quote) ++ quote :: rest') : text = text' ∧ rest = rest' := by
  induction text generalizing text' with
  | nil =>
    cases text' with
    | nil => exact ⟨rfl, (List.cons.inj h).2⟩
    | cons c' text' =>
      rw [List.flatMap_cons, List.append_assoc] at h
      -- A text never goes on with the quote that encloses it.
      exact absurd (congrArg List.head? h).symm (head?_escaped hquote c' _)
  | cons c text ih =>
    rw [List.flatMap_cons, List.append_assoc] at h
    cases text' with
    | nil => exact absurd (congrArg List.head? h) (head?_escaped hquote c _)
    | cons c' text' =>
      rw [List.flatMap_cons, List.append_assoc] at h
      -- Both texts go on with a character, and reading gives it back with what comes after it.
      have hread := congrArg unescape h
      rw [unescape_escaped hquote, unescape_escaped hquote] at hread
      injection hread with hread
      injection hread with hc hmore
      obtain ⟨htext, hrest⟩ := ih hmore
      exact ⟨by rw [hc, htext], hrest⟩

/-- A text begins with one quoted string at most. -/
theorem quotedChars_append_inj {text text' rest rest' : List Char}
    (h : quotedChars text ++ rest = quotedChars text' ++ rest') : text = text' ∧ rest = rest' := by
  unfold quotedChars at h
  simp only [List.cons_append, List.append_assoc, List.nil_append] at h
  obtain ⟨hquote, hbody⟩ := List.cons.inj h
  rw [← hquote] at hbody
  exact flatMap_escaped_inj (enclosingQuote_eq text) hbody

end Treewalk.Text
