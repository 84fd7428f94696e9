import Treewalk.Token.Piece

/-!
# The longest text of a kind

Blanks, words, numbers and symbols are cut off a text as long as they can be: what is cut off is of its
kind, and what follows does not make it a longer one (`Longest`). For each kind there is the condition on
what follows by which cutting stops (`longest_isBlank`, `longest_isWord`, `longest_isNumeral`,
`longest_isSymbol_singleton`, `longest_isSymbol_pair`).
-/

namespace Treewalk

/-! ## Kinds of texts -/

/-- A text is of a kind, and no text that goes on after it with what follows is of that kind. -/
structure Longest (P : List Char → Prop) (text rest : List Char) : Prop where
  holds : P text
  longest : ∀ more, more <+: rest → P (text ++ more) → more = []

/-- A run of characters that separate tokens. -/
structure IsBlank (text : List Char) : Prop where
  ne_nil : text ≠ []
  spacing : ∀ c ∈ text, isSpacing c = true

/-- A word is a letter or an underscore, and letters, digits and underscores after it. -/
def IsWord (text : List Char) : Prop :=
  ∃ c cs, text = c :: cs ∧ isNameStart c = true ∧ ∀ d ∈ cs, isNamePart d = true

/-- The spelling of a symbol. -/
def IsSymbol (text : List Char) : Prop := ∃ s : Symbol, s.spelling.toList = text

/-- A number is digits, and a point and more digits after them unless there are none. -/
structure Numeral (whole fraction text : List Char) : Prop where
  ne_nil : whole ≠ []
  isDigit : ∀ c ∈ whole ++ fraction, Text.isDigit c = true
  eq : text = whole ++ if fraction = [] then [] else '.' :: fraction

/-- A number, whatever its digits before and after the point are. -/
def IsNumeral (text : List Char) : Prop := ∃ whole fraction, Numeral whole fraction text

/-- The value of a number by its digits before and after the point. -/
def numeralValue (whole fraction : List Char) : Float :=
  Number.ofDigits (whole.filterMap Text.digitValue?) (fraction.filterMap Text.digitValue?)

/-! ## Characters that begin a piece -/

/-- A character that passes a test which no blank passes is no blank. -/
theorem isSpacing_eq_false {p : Char → Bool} {c : Char}
    (hp : p ' ' = false ∧ p '\t' = false ∧ p '\r' = false ∧ p '\n' = false) (hc : p c = true) :
    isSpacing c = false := by
  refine Bool.eq_false_iff.2 fun hspacing => ?_
  unfold isSpacing at hspacing
  simp only [Bool.or_eq_true, decide_eq_true_eq] at hspacing
  rcases hspacing with ((rfl | rfl) | rfl) | rfl <;> simp [hp] at hc

/-- A digit begins only numbers. -/
theorem not_other_of_isDigit {c : Char} (h : Text.isDigit c = true) :
    isSpacing c = false ∧ c ≠ '"' ∧ c ≠ '/' := by
  refine ⟨isSpacing_eq_false (by decide) h, ?_, ?_⟩ <;> rintro rfl <;> exact absurd h (by decide)

/-- What a name begins with does not begin anything else. -/
theorem not_other_of_isNameStart {c : Char} (h : isNameStart c = true) :
    isSpacing c = false ∧ c ≠ '/' ∧ c ≠ '"' ∧ Text.isDigit c = false := by
  refine ⟨isSpacing_eq_false (by decide) h, ?_, ?_, ?_⟩
  · rintro rfl
    exact absurd h (by decide)
  · rintro rfl
    exact absurd h (by decide)
  -- Letters are no digits by their codes, which are compared with those of the digits.
  have hcode : 65 ≤ c.toNat ∧ c.toNat < 0x80 := by
    unfold isNameStart Char.isAlpha Char.isUpper Char.isLower at h
    simp only [Bool.or_eq_true, Bool.and_eq_true, decide_eq_true_eq, UInt32.le_iff_toNat_le] at h
    rcases h with (⟨hle, hle'⟩ | ⟨hle, hle'⟩) | rfl
    · exact ⟨hle, Nat.lt_of_le_of_lt hle' (by decide)⟩
    · exact ⟨Nat.le_trans (by decide) hle, Nat.lt_of_le_of_lt hle' (by decide)⟩
    · decide
  have hdigit : ¬('0' ≤ c ∧ c ≤ '9') := by
    rintro ⟨-, hle⟩
    have hle' : c.toNat ≤ 57 := hle
    omega
  unfold Text.isDigit Text.digitValue?
  rw [if_pos hcode.2, if_neg hdigit]
  rfl

/-! ## Runs of characters -/

/-- A text whose characters all pass a test, and what follows it does not begin with one that does. -/
structure Run (p : Char → Bool) (text rest : List Char) : Prop where
  all : ∀ c ∈ text, p c = true
  stop : ∀ c ∈ rest.head?, p c = false

section

variable {p : Char → Bool} {text rest : List Char}

/-- A run is where the first characters that satisfy a test end. -/
theorem Run.split (h : Run p text rest) :
    (text ++ rest).takeWhile p = text ∧ (text ++ rest).dropWhile p = rest := by
  have hrest : rest.takeWhile p = [] ∧ rest.dropWhile p = rest := by
    cases rest with
    | nil => exact ⟨rfl, rfl⟩
    | cons c cs =>
      have hc := Bool.eq_false_iff.1 (h.stop c rfl)
      exact ⟨List.takeWhile_cons_of_neg hc, List.dropWhile_cons_of_neg hc⟩
  rw [List.takeWhile_append_of_pos h.all, List.dropWhile_append_of_pos h.all, hrest.1, hrest.2,
    List.append_nil]
  exact ⟨rfl, rfl⟩

/-- Every text begins with a run, which may be empty. -/
theorem run_takeWhile (p : Char → Bool) (cs : List Char) : Run p (cs.takeWhile p) (cs.dropWhile p) := by
  refine ⟨fun c hc => List.all_eq_true.1 List.all_takeWhile c hc, fun c hc => ?_⟩
  have hhead := List.head?_dropWhile_not p cs
  rw [Option.mem_def.1 hc] at hhead
  simpa using hhead

variable {P : List Char → Prop}

/-- A text is the longest of its kind if the next character cannot be in one that goes on. -/
theorem Longest.of_head (h : P text) (hmore : ∀ c more, P (text ++ c :: more) → p c = true)
    (hrest : ∀ c ∈ rest.head?, p c = false) : Longest P text rest := by
  refine ⟨h, fun more hbegins hlonger => ?_⟩
  cases more with
  | nil => rfl
  | cons c more =>
    obtain ⟨later, rfl⟩ := hbegins
    have hstop := hrest c rfl
    rw [hmore c more hlonger] at hstop
    cases hstop

/-- What follows the longest text of a kind does not begin with a character that it could go on with. -/
theorem Longest.head (h : Longest P text rest) (hp : ∀ c, p c = true → P (text ++ [c])) :
    ∀ c ∈ rest.head?, p c = false := by
  intro c hc
  refine Bool.eq_false_iff.2 fun hpc => ?_
  obtain ⟨cs, rfl⟩ : ∃ cs, rest = c :: cs := by
    cases rest with
    | nil => cases hc
    | cons d cs =>
      cases hc
      exact ⟨cs, rfl⟩
  cases h.longest [c] ⟨cs, rfl⟩ (hp c hpc)

end

/-! ## Blanks and words -/

section

variable {c : Char} {cs rest : List Char}

/-- The longest blank piece is a run of blanks. -/
theorem longest_isBlank :
    Longest IsBlank (c :: cs) rest ↔ isSpacing c = true ∧ Run isSpacing cs rest := by
  constructor
  · intro h
    refine ⟨h.holds.spacing c List.mem_cons_self,
      fun d hd => h.holds.spacing d (List.mem_cons_of_mem c hd), h.head fun d hd => ?_⟩
    -- With a blank more it would be longer.
    refine ⟨List.cons_ne_nil c _, fun e he => ?_⟩
    rcases List.mem_append.1 he with he | he
    · exact h.holds.spacing e he
    · exact List.mem_singleton.1 he ▸ hd
  -- More of it would begin with a character that is no blank.
  · rintro ⟨hc, hrun⟩
    refine .of_head ⟨List.cons_ne_nil c cs, fun d hd => ?_⟩ (fun d more h => ?_) hrun.stop
    · exact (List.mem_cons.1 hd).elim (fun heq => heq ▸ hc) (hrun.all d)
    · exact h.spacing d (List.mem_append_right (c :: cs) List.mem_cons_self)

/-- The longest word is a run of letters and digits after a first letter. -/
theorem longest_isWord :
    Longest IsWord (c :: cs) rest ↔ isNameStart c = true ∧ Run isNamePart cs rest := by
  constructor
  · intro h
    obtain ⟨_, _, heq, hc, hcs⟩ := h.holds
    cases heq
    refine ⟨hc, hcs, h.head fun d hd => ⟨c, cs ++ [d], rfl, hc, fun e he => ?_⟩⟩
    exact (List.mem_append.1 he).elim (hcs e) fun he => List.mem_singleton.1 he ▸ hd
  · rintro ⟨hc, hrun⟩
    refine .of_head ⟨c, cs, rfl, hc, hrun.all⟩ (fun d more h => ?_) hrun.stop
    obtain ⟨_, _, heq, -, hall⟩ := h
    cases heq
    exact hall d (List.mem_append_right cs List.mem_cons_self)

end

/-! ## Numbers -/

section

variable {whole fraction text rest : List Char}

/-- The whole part of a number is a run of digits, as a point or no digit comes after it. -/
theorem Numeral.run (h : Numeral whole fraction text) (rest : List Char)
    (hrest : ∀ c ∈ rest.head?, Text.isDigit c = false) :
    Run Text.isDigit whole ((if fraction = [] then [] else '.' :: fraction) ++ rest) := by
  refine ⟨fun c hc => h.isDigit c (List.mem_append_left _ hc), ?_⟩
  split
  · exact hrest
  · rintro c hc
    cases hc
    decide

/-- A number is the longest if no digit follows it, nor, without a fraction, a point and a digit. -/
theorem longest_isNumeral (h : Numeral whole fraction text) :
    Longest IsNumeral text rest ↔ (∀ c ∈ rest.head?, Text.isDigit c = false) ∧
      (fraction = [] → fractionDigits rest = []) := by
  obtain ⟨hne, hdigit, rfl⟩ := id h
  constructor
  · intro hlongest
    refine ⟨hlongest.head fun c hc => ?_, ?_⟩
    · by_cases hfraction : fraction = []
      · subst hfraction
        refine ⟨whole ++ [c], [], by simp, fun d hd => ?_, by simp⟩
        rw [List.append_nil] at hd hdigit
        exact (List.mem_append.1 hd).elim (hdigit d) fun hd => List.mem_singleton.1 hd ▸ hc
      · refine ⟨whole, fraction ++ [c], hne, fun d hd => ?_, by simp [hfraction]⟩
        rw [← List.append_assoc] at hd
        exact (List.mem_append.1 hd).elim (hdigit d) fun hd => List.mem_singleton.1 hd ▸ hc
    · -- Otherwise the number would go on with the point and the digits after it.
      rintro rfl
      refine Decidable.byContradiction fun hfraction => ?_
      unfold fractionDigits at hfraction
      split at hfraction
      · next ds =>
        have hnil := hlongest.longest ('.' :: ds.takeWhile Text.isDigit)
          (List.cons_prefix_cons.2 ⟨rfl, List.takeWhile_prefix _⟩)
          ⟨whole, ds.takeWhile Text.isDigit, hne, fun d hd => ?_, by simp [hfraction]⟩
        · cases hnil
        · rw [List.append_nil] at hdigit
          exact (List.mem_append.1 hd).elim (hdigit d) ((run_takeWhile _ ds).all d)
      · exact hfraction rfl
  · rintro ⟨hrest, hfraction⟩
    refine ⟨⟨whole, fraction, h⟩, fun more hbegins hlonger => ?_⟩
    obtain ⟨whole', fraction', h'⟩ := hlonger
    cases more with
    | nil => rfl
    | cons c more =>
      obtain ⟨later, rfl⟩ := hbegins
      have hc : Text.isDigit c = false := hrest c rfl
      -- The digits before the point are the same, so what follows them is.
      have hsplit := (h.run (c :: more) fun d hd => Option.some.inj hd ▸ hc).split.2
      have hsplit' := (h'.run [] nofun).split.2
      rw [List.append_nil, ← h'.eq, List.append_assoc, hsplit] at hsplit'
      -- Then `c` is the point or one of the digits after it.
      by_cases hnil : fraction' = []
      · rw [if_pos hnil] at hsplit'
        exact absurd (List.append_eq_nil_iff.1 hsplit').2 (List.cons_ne_nil c more)
      · have hdigit' : ∀ d ∈ fraction', Text.isDigit d = true :=
          fun d hd => h'.isDigit d (List.mem_append_right _ hd)
        rw [if_neg hnil] at hsplit'
        by_cases hwhole : fraction = []
        · rw [if_pos hwhole, List.nil_append] at hsplit'
          obtain ⟨rfl, rfl⟩ := List.cons.inj hsplit'
          obtain ⟨d, ds, rfl⟩ := List.exists_cons_of_ne_nil hnil
          have hempty := hfraction hwhole
          rw [List.cons_append, fractionDigits, List.cons_append,
            List.takeWhile_cons_of_pos (hdigit' d List.mem_cons_self)] at hempty
          cases hempty
        · rw [if_neg hwhole] at hsplit'
          have hmem : c ∈ fraction' := by
            rw [← (List.cons.inj hsplit').2]
            exact List.mem_append_right _ List.mem_cons_self
          rw [hdigit' c hmem] at hc
          cases hc

/-- A longest number is cut off with its value. -/
theorem cutNumber_of_numeral (h : Numeral whole fraction text)
    (hlongest : Longest IsNumeral text rest) : cutNumber (text ++ rest) =
      (.token (.number (String.ofList text) (numeralValue whole fraction)), text.length) := by
  obtain ⟨hrest, hfraction⟩ := (longest_isNumeral h).1 hlongest
  obtain ⟨htake, hdrop⟩ := (h.run rest hrest).split
  rw [← List.append_assoc, ← h.eq] at htake hdrop
  -- The digits behind the point are all that the scanner takes.
  have hdigits : fractionDigits ((if fraction = [] then [] else '.' :: fraction) ++ rest) = fraction := by
    by_cases hnil : fraction = []
    · rw [if_pos hnil, List.nil_append, hfraction hnil, hnil]
    · have hrun : Run Text.isDigit fraction rest :=
        ⟨fun c hc => h.isDigit c (List.mem_append_right _ hc), hrest⟩
      rw [if_neg hnil, List.cons_append, fractionDigits, hrun.split.1]
  have hlength : whole.length + (if fraction = [] then 0 else fraction.length + 1) = text.length := by
    rw [h.eq, List.length_append]
    split <;> rfl
  unfold cutNumber
  simp only [htake, hdrop, hdigits, hlength, List.take_left]
  rfl

/-- A text that begins with a digit begins with a number. -/
theorem exists_longest_isNumeral {c : Char} {cs : List Char} (hc : Text.isDigit c = true) :
    ∃ whole fraction text rest, text ++ rest = c :: cs ∧ Numeral whole fraction text ∧
      Longest IsNumeral text rest := by
  have hrun := run_takeWhile Text.isDigit (c :: cs)
  have hsplit := List.takeWhile_append_dropWhile (p := Text.isDigit) (l := c :: cs)
  have hne : (c :: cs).takeWhile Text.isDigit ≠ [] := by
    rw [List.takeWhile_cons_of_pos hc]
    exact List.cons_ne_nil _ _
  generalize (c :: cs).takeWhile Text.isDigit = whole, (c :: cs).dropWhile Text.isDigit = after at *
  -- A point belongs to the number only if a digit follows it.
  by_cases hfraction : fractionDigits after = []
  · have h : Numeral whole [] whole := ⟨hne, by simpa using hrun.all, by simp⟩
    exact ⟨whole, [], whole, after, hsplit, h, (longest_isNumeral h).2 ⟨hrun.stop, fun _ => hfraction⟩⟩
  · unfold fractionDigits at hfraction
    split at hfraction
    · next ds =>
      have hdigits := run_takeWhile Text.isDigit ds
      have h : Numeral whole (ds.takeWhile Text.isDigit) (whole ++ '.' :: ds.takeWhile Text.isDigit) := by
        refine ⟨hne, fun d hd => ?_, by rw [if_neg hfraction]⟩
        exact (List.mem_append.1 hd).elim (hrun.all d) (hdigits.all d)
      refine ⟨whole, _, _, ds.dropWhile Text.isDigit, ?_, h, (longest_isNumeral h).2
        ⟨hdigits.stop, fun hnil => absurd hnil hfraction⟩⟩
      rw [List.append_assoc, List.cons_append, List.takeWhile_append_dropWhile, hsplit]
    · exact absurd rfl hfraction

end

/-! ## Symbols -/

namespace Symbol

variable {s : Symbol} {c : Char}

/-- The symbols of one character. -/
theorem spelling_of_ofChar? (h : ofChar? c = some s) : s.spelling.toList = [c] := by
  unfold ofChar? at h
  split at h <;> cases h <;> rfl

/-- The symbols with an equals sign behind. -/
theorem spelling_of_ofCharEqual? (h : ofCharEqual? c = some s) : s.spelling.toList = [c, '='] := by
  unfold ofCharEqual? at h
  split at h <;> cases h <;> rfl

/-- Every symbol is one of these, and one with an equals sign begins with one of the others. -/
theorem spelling_cases (s : Symbol) : (∃ c, s.spelling.toList = [c] ∧ ofChar? c = some s) ∨
    ∃ c, s.spelling.toList = [c, '='] ∧ ofCharEqual? c = some s ∧ (ofChar? c).isSome := by
  cases s
  case bangEqual | equalEqual | lessEqual | greaterEqual => exact .inr ⟨_, rfl, rfl, rfl⟩
  all_goals exact .inl ⟨_, rfl, rfl⟩

/-- The one symbol that begins with a slash is the slash. -/
theorem eq_slash {cs : List Char} (h : s.spelling.toList = '/' :: cs) : s = slash ∧ cs = [] := by
  cases s <;> cases h
  exact ⟨rfl, rfl⟩

/-- What a symbol begins with does not begin anything else, but a slash. -/
theorem not_other_of_mem (h : c ∈ s.spelling.toList.head?) :
    isSpacing c = false ∧ c ≠ '"' ∧ Text.isDigit c = false ∧ isNameStart c = false := by
  cases s <;> cases h <;> decide

end Symbol

section

variable {c : Char} {cs rest : List Char} {s : Symbol}

/-- A symbol of one character is the longest if no equals sign makes it one of two. -/
theorem longest_isSymbol_singleton (h : Symbol.ofChar? c = some s) :
    Longest IsSymbol [c] rest ↔ (rest.head? = some '=' → Symbol.ofCharEqual? c = none) := by
  constructor
  · intro hlongest hhead
    -- With the equals sign it would be longer.
    refine Decidable.byContradiction fun hne => ?_
    obtain ⟨s', hs'⟩ := Option.ne_none_iff_exists'.1 hne
    obtain ⟨cs, rfl⟩ := List.head?_eq_some_iff.1 hhead
    cases hlongest.longest ['='] ⟨cs, rfl⟩ ⟨s', Symbol.spelling_of_ofCharEqual? hs'⟩
  · intro hnone
    refine ⟨⟨s, Symbol.spelling_of_ofChar? h⟩, ?_⟩
    -- A longer symbol would be this one with an equals sign.
    rintro more ⟨later, rfl⟩ ⟨s', hs'⟩
    rcases s'.spelling_cases with ⟨d, hd, -⟩ | ⟨d, hd, hequal, -⟩
    · rw [hd] at hs'
      exact (List.cons.inj hs').2.symm
    · rw [hd] at hs'
      obtain ⟨rfl, rfl⟩ := List.cons.inj hs'
      rw [hnone rfl] at hequal
      cases hequal

/-- A symbol of two characters is the longest. -/
theorem longest_isSymbol_pair (h : Symbol.ofCharEqual? c = some s) : Longest IsSymbol [c, '='] rest := by
  refine ⟨⟨s, Symbol.spelling_of_ofCharEqual? h⟩, ?_⟩
  rintro more - ⟨s', hs'⟩
  rcases s'.spelling_cases with ⟨d, hd, -⟩ | ⟨d, hd, -⟩
  · rw [hd] at hs'
    cases hs'
  · rw [hd] at hs'
    exact (List.cons.inj (List.cons.inj hs').2).2.symm

/-- A longest symbol is cut off: the one with an equals sign comes first. -/
theorem cutSymbol_of_longest (h : Longest IsSymbol s.spelling.toList rest)
    (hs : s.spelling.toList = c :: cs) :
    cutSymbol c (cs ++ rest) = (.token (.symbol s), 1 + cs.length) := by
  rcases s.spelling_cases with ⟨d, hd, hchar⟩ | ⟨d, hd, hequal, -⟩
  · rw [hd] at h hs
    cases hs
    unfold cutSymbol
    split
    · next s' _ heq =>
      split at heq
      -- The longer symbol is cut if there is one, so the symbol is not of one character alone.
      · next hhead =>
        rw [(longest_isSymbol_singleton hchar).1 h hhead] at heq
        cases heq
      · cases heq
    · next s' _ heq =>
      rw [hchar] at heq
      cases heq
      rfl
    · next _ heq =>
      rw [hchar] at heq
      cases heq
  · rw [hd] at hs
    cases hs
    unfold cutSymbol
    rw [List.singleton_append, List.head?_cons, if_pos rfl, hequal]
    rfl

end

/-! ## Other texts after the longest of a kind -/

section

variable {text rest rest' : List Char}

/-- There are no blanks in a word, in a number or in a symbol. -/
theorem IsWord.not_isSpacing (h : IsWord text) : ∀ c ∈ text, isSpacing c = false := by
  obtain ⟨c, cs, rfl, hc, hcs⟩ := h
  intro d hd
  rcases List.mem_cons.1 hd with rfl | hd
  · exact (not_other_of_isNameStart hc).1
  · exact isSpacing_eq_false (by decide) (hcs d hd)

/-- Numbers do not hold blanks. -/
theorem IsNumeral.not_isSpacing (h : IsNumeral text) : ∀ c ∈ text, isSpacing c = false := by
  obtain ⟨whole, fraction, -, hdigit, rfl⟩ := h
  intro c hc
  by_cases hpoint : c = '.'
  · subst hpoint
    decide
  · refine (not_other_of_isDigit (hdigit c ?_)).1
    rw [List.mem_append] at hc ⊢
    refine hc.imp_right fun hc => ?_
    split at hc
    · cases hc
    · exact (List.mem_cons.1 hc).resolve_left hpoint

/-- Symbols do not hold blanks. -/
theorem IsSymbol.not_isSpacing (h : IsSymbol text) : ∀ c ∈ text, isSpacing c = false := by
  obtain ⟨s, rfl⟩ := h
  have hall : s.spelling.toList.all (!isSpacing ·) = true := by
    cases s <;> rfl
  intro c hc
  simpa using List.all_eq_true.1 hall c hc

/-- What a text may go on with without a blank decides whether it is the longest of its kind. -/
theorem Longest.transfer {P : List Char → Prop} (h : Longest P text rest)
    (hP : ∀ {text}, P text → ∀ c ∈ text, isSpacing c = false)
    (hbegins : rest'.takeWhile (!isSpacing ·) <+: rest) : Longest P text rest' := by
  refine ⟨h.holds, fun more hmore hlonger => h.longest more (.trans ?_ hbegins) hlonger⟩
  obtain ⟨later, rfl⟩ := hmore
  rw [List.takeWhile_append_of_pos fun c hc => by
    rw [hP hlonger c (List.mem_append_right text hc)]
    rfl]
  exact List.prefix_append more _

end

end Treewalk
