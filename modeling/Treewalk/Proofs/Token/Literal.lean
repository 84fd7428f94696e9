import Treewalk.Token.Piece

/-!
# Where string literals end

A string literal ends at the first quote that does not follow a backslash, and at the last quote of the
text if every quote follows one (`IsLiteral`). `literal_of_stringLength?` and
`stringLength?_of_literal` say that `stringLength?` finds this quote, and
`eq_none_of_stringLength?` that it finds none only if there is no quote.
-/

namespace Treewalk

/-- Every quote in a text follows a backslash. -/
def QuotesEscaped (body : List Char) : Prop :=
  ∀ before after, body = before ++ '"' :: after → before.getLast? = some '\\'

/-- The body of a string literal, which a quote closes, and the text after that quote. -/
structure IsLiteral (body rest : List Char) : Prop where
  escaped : QuotesEscaped body
  last : body.getLast? = some '\\' → '"' ∉ rest

variable {seen n : Nat} {escaped : Option Nat} {c : Char} {body rest cs : List Char}

/-- Without characters there is no quote. -/
theorem quotesEscaped_nil : QuotesEscaped [] := by
  intro before after h
  cases before <;> cases h

/-- A quote at the beginning would not be escaped. -/
theorem QuotesEscaped.head_ne (h : QuotesEscaped (c :: body)) : c ≠ '"' := by
  rintro rfl
  cases h [] body rfl

/-- Any other character may be put in front. -/
theorem QuotesEscaped.cons (h : QuotesEscaped body) (hc : c ≠ '"') : QuotesEscaped (c :: body) := by
  intro before after heq
  cases before with
  | nil => exact absurd (List.cons.inj heq).1 hc
  | cons b before =>
    rw [List.getLast?_cons, h before after (List.cons.inj heq).2]
    rfl

/-- The first character may be left off, unless it escapes a quote. -/
theorem QuotesEscaped.tail (h : QuotesEscaped (c :: body))
    (hc : ∀ ds, c = '\\' → body = '"' :: ds → False) : QuotesEscaped body := by
  intro before after heq
  have hlast := h (c :: before) after (congrArg (c :: ·) heq)
  cases before with
  | nil => exact (hc after (Option.some.inj hlast) heq).elim
  | cons b before => exact hlast

/-- An escaped quote may be put in front or left off. -/
theorem quotesEscaped_cons_cons : QuotesEscaped ('\\' :: '"' :: body) ↔ QuotesEscaped body := by
  constructor
  · intro h before after heq
    have hlast := h ('\\' :: '"' :: before) after (congrArg ('\\' :: '"' :: ·) heq)
    -- A beginning that ends with a quote ends with the escaped one, or behind it.
    cases before with
    | nil => cases hlast
    | cons b before => exact hlast
  · intro h before after heq
    match before with
    | [] => cases heq
    | [b] =>
      cases heq
      rfl
    | b :: d :: before =>
      rw [List.getLast?_cons, List.getLast?_cons,
        h before after (List.cons.inj (List.cons.inj heq).2).2]
      rfl

/-- The end that is found is the quote that closes the literal, unless there is no more quote. -/
theorem literal_of_stringLength? (h : stringLength? seen escaped cs = some n) :
    (∃ body rest, cs = body ++ '"' :: rest ∧ IsLiteral body rest ∧ n = seen + body.length + 1) ∨
      escaped = some n ∧ '"' ∉ cs := by
  -- An escaped quote, which is noted as the end in `escaped`; a quote that closes; any other character.
  fun_induction stringLength? seen escaped cs with
  | case1 seen escaped cs ih =>
    rcases ih h with ⟨body, rest, rfl, hbody, rfl⟩ | ⟨heq, hno⟩
    · refine .inl ⟨'\\' :: '"' :: body, rest, rfl, ⟨?_, fun hlast => ?_⟩, ?_⟩
      · exact quotesEscaped_cons_cons.2 hbody.escaped
      · cases body with
        | nil => cases hlast
        | cons d body => exact hbody.last hlast
      · simp only [List.length_cons]
        omega
    · cases heq
      exact .inl ⟨['\\'], cs, rfl, ⟨quotesEscaped_nil.cons (by decide), fun _ => hno⟩, rfl⟩
  | case2 seen escaped cs =>
    cases h
    exact .inl ⟨[], cs, rfl, ⟨quotesEscaped_nil, nofun⟩, rfl⟩
  | case3 seen escaped c cs hescaped hquote ih =>
    rcases ih h with ⟨body, rest, rfl, hbody, rfl⟩ | ⟨heq, hno⟩
    · refine .inl ⟨c :: body, rest, rfl, ⟨hbody.escaped.cons hquote, fun hlast => ?_⟩, ?_⟩
      · cases body with
        | nil => exact (hescaped rest (Option.some.inj hlast) rfl).elim
        | cons d body => exact hbody.last hlast
      · simp only [List.length_cons]
        omega
    · exact .inr ⟨heq, fun hmem => (List.mem_cons.1 hmem).elim (fun h => hquote h.symm) hno⟩
  | case4 seen escaped => exact .inr ⟨h, List.not_mem_nil⟩

/-- Without further quotes a string is closed by the last quote with a backslash before it. -/
theorem stringLength?_of_not_mem (h : '"' ∉ cs) : stringLength? seen escaped cs = escaped := by
  fun_induction stringLength? seen escaped cs with
  | case1 => exact absurd (List.mem_cons_of_mem _ List.mem_cons_self) h
  | case2 => exact absurd List.mem_cons_self h
  | case3 seen escaped c cs _ _ ih => exact ih fun hmem => h (List.mem_cons_of_mem _ hmem)
  | case4 => rfl

/-- The quote that closes a literal is found. -/
theorem stringLength?_of_literal (h : IsLiteral body rest) :
    stringLength? seen escaped (body ++ '"' :: rest) = some (seen + body.length + 1) := by
  fun_induction stringLength? seen escaped body with
  | case1 seen escaped body ih =>
    have hlast : body.getLast? = some '\\' → '"' ∉ rest := fun hlast => by
      cases body with
      | nil => cases hlast
      | cons d body => exact h.last hlast
    rw [List.cons_append, List.cons_append, stringLength?,
      ih ⟨quotesEscaped_cons_cons.1 h.escaped, hlast⟩]
    simp only [List.length_cons, Option.some.injEq]
    omega
  | case2 seen escaped body => exact absurd rfl h.escaped.head_ne
  | case3 seen escaped c body hescaped hquote ih =>
    have hbody := h.escaped.tail hescaped
    cases body with
    | nil =>
      by_cases hc : c = '\\'
      · -- The closing quote follows a backslash, so it is the last one.
        subst hc
        exact stringLength?_of_not_mem (h.last rfl)
      · rw [List.cons_append, stringLength?]
        · rfl
        · exact fun _ heq => absurd heq hc
        · exact hquote
    | cons d body =>
      rw [List.cons_append, stringLength?, ih ⟨hbody, h.last⟩]
      · simp only [List.length_cons, Option.some.injEq]
        omega
      · exact fun ds hc heq => hescaped body hc (by rw [(List.cons.inj heq).1])
      · exact hquote
  | case4 seen escaped => rfl

/-- If no end is found there is no quote. -/
theorem eq_none_of_stringLength? (h : stringLength? seen escaped cs = none) :
    escaped = none ∧ '"' ∉ cs := by
  fun_induction stringLength? seen escaped cs with
  | case1 seen escaped cs ih => cases (ih h).1
  | case2 => cases h
  | case3 seen escaped c cs _ hquote ih =>
    obtain ⟨heq, hno⟩ := ih h
    exact ⟨heq, fun hmem => (List.mem_cons.1 hmem).elim (fun hc => hquote hc.symm) hno⟩
  | case4 => exact ⟨h, List.not_mem_nil⟩

/-- A text with a quote in it begins with the body of a literal. -/
theorem exists_literal (h : '"' ∈ cs) : ∃ body rest, cs = body ++ '"' :: rest ∧ IsLiteral body rest := by
  cases hend : stringLength? 0 none cs with
  | none => exact absurd h (eq_none_of_stringLength? hend).2
  | some n =>
    rcases literal_of_stringLength? hend with ⟨body, rest, hcs, hbody, -⟩ | ⟨hnone, -⟩
    · exact ⟨body, rest, hcs, hbody⟩
    · cases hnone

end Treewalk
