import Treewalk.Proofs.Token.Literal

/-!
# Patterns matched by backtracking

A pattern is matched at the beginning of a text. Of two alternatives the first is tried before the
second, and one more repetition before none; where what comes later in the pattern fails, the last
choice is taken back. `Pattern.rests` lists what is left of the text after each match, in the order in
which the matches are tried, so the match that is found is the first of the list.

The alternatives in the pattern of string literals overlap: a backslash before a quote is the beginning
of one and all of the other. So a backslash can be given back to reach a quote, and a literal is matched
in more than one way. The way that is found ends the literal as `IsLiteral` says
(`head?_rests_stringEnd`, `rests_stringEnd_of_not_mem`).
-/

namespace Treewalk

/-- A pattern for the beginning of a text. -/
inductive Pattern where
  /-- One character that passes a test. -/
  | char (test : Char → Bool)
  | seq (first second : Pattern)
  | alt (first second : Pattern)
  /-- Any number of repetitions, as many as possible. -/
  | star (item : Pattern)

namespace Pattern

/-- What is left of a text after repetitions of an item, given what is left after one of them. A
repetition takes something. -/
def repeated (item : List Char → List (List Char)) (text : List Char) : List (List Char) :=
  (item text).flatMap (fun rest => if rest.length < text.length then repeated item rest else []) ++
    [text]
termination_by text.length

/-- What is left of a text after a match, in the order in which the matches are tried. -/
def rests : Pattern → List Char → List (List Char)
  | char _, [] => []
  | char test, c :: cs => if test c then [cs] else []
  | seq first second, text => (first.rests text).flatMap second.rests
  | alt first second, text => first.rests text ++ second.rests text
  | star item, text => repeated item.rests text

/-- A given character. -/
def exactly (c : Char) : Pattern := char fun d => d = c

/-- Any character but the given one. -/
def except (c : Char) : Pattern := char fun d => d ≠ c

/-- One part of the body of a string literal: a backslash and a quote, or any character but a quote. -/
def stringItem : Pattern := alt (seq (exactly '\\') (exactly '"')) (except '"')

/-- The body of a string literal and the quote that closes it. -/
def stringEnd : Pattern := seq (star stringItem) (exactly '"')

/-- A string literal, from one quote to another. -/
def stringPattern : Pattern := seq (exactly '"') stringEnd

variable {c d : Char} {body rest cs : List Char}

/-- What is left after two patterns is what the second leaves of each rest of the first. -/
theorem rests_seq (first second : Pattern) (text : List Char) :
    (seq first second).rests text = (first.rests text).flatMap second.rests := rfl

/-- A repeated pattern goes on where its item has taken something, before it gives up. -/
theorem rests_star (item : Pattern) (text : List Char) :
    (star item).rests text = (item.rests text).flatMap
      (fun rest => if rest.length < text.length then (star item).rests rest else []) ++ [text] := by
  rw [rests, repeated]
  rfl

/-- A pattern of one character takes that character. -/
theorem rests_exactly_self : (exactly c).rests (c :: cs) = [cs] :=
  if_pos (decide_eq_true rfl)

/-- It takes no other one. -/
theorem rests_exactly_of_ne (h : d ≠ c) : (exactly c).rests (d :: cs) = [] :=
  if_neg (Bool.eq_false_iff.1 (decide_eq_false h))

/-- A pattern of all characters but one takes any other. -/
theorem rests_except_of_ne (h : d ≠ c) : (except c).rests (d :: cs) = [cs] :=
  if_pos (decide_eq_true h)

/-! ## The body of a literal -/

/-- An escaped quote may be taken whole, or its backslash alone. -/
theorem rests_stringItem_escaped : stringItem.rests ('\\' :: '"' :: cs) = [cs, '"' :: cs] := rfl

/-- A quote is no item of a string. -/
theorem rests_stringItem_quote : stringItem.rests ('"' :: cs) = [] := rfl

/-- Any other character is taken alone. -/
theorem rests_stringItem_cons (hescaped : ∀ ds, c = '\\' → cs = '"' :: ds → False) (hquote : c ≠ '"') :
    stringItem.rests (c :: cs) = [cs] := by
  have hpair : (seq (exactly '\\') (exactly '"')).rests (c :: cs) = [] := by
    by_cases hc : c = '\\'
    · subst hc
      rw [rests_seq, rests_exactly_self, List.flatMap_singleton]
      cases cs with
      | nil => rfl
      | cons d ds => exact rests_exactly_of_ne fun hd => hescaped ds rfl (by rw [hd])
    · rw [rests_seq, rests_exactly_of_ne hc, List.flatMap_nil]
  rw [stringItem, rests, hpair, rests_except_of_ne hquote, List.nil_append]

/-- No repetition begins with a quote. -/
theorem rests_body_quote : (star stringItem).rests ('"' :: cs) = ['"' :: cs] := by
  rw [rests_star, rests_stringItem_quote, List.flatMap_nil, List.nil_append]

/-- Without a quote a string does not end. -/
theorem rests_stringEnd_nil : stringEnd.rests [] = [] := by
  rw [stringEnd, rests_seq, rests_star]
  rfl

/-- A quote closes the literal, as no repetition takes it. -/
theorem rests_stringEnd_quote : stringEnd.rests ('"' :: cs) = [cs] := by
  rw [stringEnd, rests_seq, rests_body_quote, List.flatMap_singleton, rests_exactly_self]

/-- A quote with a backslash before it closes the literal too, but only if nothing after it does. -/
theorem rests_stringEnd_escaped :
    stringEnd.rests ('\\' :: '"' :: cs) = stringEnd.rests cs ++ [cs] := by
  have hshort : ('"' :: cs).length < ('\\' :: '"' :: cs).length := Nat.lt_succ_self _
  have hshorter : cs.length < ('\\' :: '"' :: cs).length := Nat.lt_trans (Nat.lt_succ_self _) hshort
  -- The backslash is taken with the quote, or without it, or it is not taken.
  have hbody : (star stringItem).rests ('\\' :: '"' :: cs) =
      (star stringItem).rests cs ++ ['"' :: cs, '\\' :: '"' :: cs] := by
    rw [rests_star, rests_stringItem_escaped, List.flatMap_cons, List.flatMap_singleton,
      if_pos hshorter, if_pos hshort, rests_body_quote, List.append_assoc]
    rfl
  rw [stringEnd, rests_seq, hbody, List.flatMap_append, List.flatMap_cons, List.flatMap_singleton,
    rests_exactly_self, rests_exactly_of_ne (by decide), List.append_nil, rests_seq]

/-- Any other character is in the body. -/
theorem rests_stringEnd_cons (hescaped : ∀ ds, c = '\\' → cs = '"' :: ds → False) (hquote : c ≠ '"') :
    stringEnd.rests (c :: cs) = stringEnd.rests cs := by
  have hshort : cs.length < (c :: cs).length := Nat.lt_succ_self _
  rw [stringEnd, rests_seq, rests_star, rests_stringItem_cons hescaped hquote, List.flatMap_singleton,
    if_pos hshort, List.flatMap_append, List.flatMap_singleton, rests_exactly_of_ne hquote,
    List.append_nil, rests_seq]

/-! ## The end of a literal -/

/-- Nor does it where there is no quote. -/
theorem rests_stringEnd_of_not_mem (h : '"' ∉ cs) : stringEnd.rests cs = [] := by
  induction cs with
  | nil => exact rests_stringEnd_nil
  | cons c cs ih =>
    rw [List.mem_cons, not_or] at h
    have hescaped : ∀ ds, c = '\\' → cs = '"' :: ds → False := fun ds _ heq =>
      h.2 (by rw [heq]; exact List.mem_cons_self)
    rw [rests_stringEnd_cons hescaped (Ne.symm h.1), ih h.2]

/-- The match that is found ends the literal. -/
theorem head?_rests_stringEnd (h : IsLiteral body rest) :
    (stringEnd.rests (body ++ '"' :: rest)).head? = some rest := by
  obtain ⟨hescaped, hlast⟩ := h
  fun_induction unescaped body with
  | case1 body ih =>
    have hlast' : body.getLast? = some '\\' → '"' ∉ rest := fun hbody => by
      cases body with
      | nil => cases hbody
      | cons d body => exact hlast hbody
    rw [List.cons_append, List.cons_append, rests_stringEnd_escaped, List.head?_append,
      ih (quotesEscaped_cons_cons.1 hescaped) hlast']
    rfl
  | case2 c body hpair ih =>
    have hbody := hescaped.tail hpair
    cases body with
    | nil =>
      by_cases hc : c = '\\'
      · -- The closing quote follows a backslash, so it is reached only as there is no quote after it.
        subst hc
        rw [List.singleton_append, rests_stringEnd_escaped, rests_stringEnd_of_not_mem (hlast rfl)]
        rfl
      · rw [List.singleton_append, rests_stringEnd_cons (fun _ heq => absurd heq hc) hescaped.head_ne]
        exact ih hbody nofun
    | cons d body =>
      rw [List.cons_append,
        rests_stringEnd_cons (fun ds hc heq => hpair body hc (by rw [(List.cons.inj heq).1]))
          hescaped.head_ne]
      exact ih hbody hlast
  | case3 =>
    rw [List.nil_append, rests_stringEnd_quote]
    rfl

/-- A string is its opening quote and what leads to its end. -/
theorem rests_stringPattern : stringPattern.rests ('"' :: cs) = stringEnd.rests cs :=
  List.append_nil _

end Pattern

end Treewalk
