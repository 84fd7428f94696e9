import Treewalk.Proofs.Grammar

/-!
# Brackets

In the tokens of a program braces and parentheses are nested properly, as one sequence of brackets
(`wellBracketed_of_parsed`). They are followed from left to right with the closing brackets that are still
awaited: a bracket that opens adds its own, one that closes has to be the last of them, and the tokens of
every phrase leave them as they were.
-/

namespace Treewalk.Grammar

/-- The closing brackets that are awaited after one more token, the nearest first. A bracket that closes
something else has no place there. -/
def awaitedAfter (awaited : List Symbol) (t : Token) : Option (List Symbol) :=
  match t.lexeme, awaited with
  | .symbol .leftParen, awaited => some (.rightParen :: awaited)
  | .symbol .leftBrace, awaited => some (.rightBrace :: awaited)
  | .symbol .rightParen, .rightParen :: outer => some outer
  | .symbol .rightBrace, .rightBrace :: outer => some outer
  | .symbol .rightParen, _ | .symbol .rightBrace, _ => none
  | _, awaited => some awaited

/-- Braces and parentheses are nested properly as one sequence of brackets. -/
def WellBracketed (ts : List Token) : Prop := ts.foldlM awaitedAfter [] = some []

/-- Whether brackets match is decided by the function that matches them. -/
instance (ts : List Token) : Decidable (WellBracketed ts) :=
  inferInstanceAs (Decidable (ts.foldlM awaitedAfter [] = some []))

/-! ## Phrases -/

/-- The two kinds of brackets, each with the bracket that opens and the one that closes. -/
inductive Brackets : Symbol → Symbol → Prop
  | parentheses : Brackets .leftParen .rightParen
  | braces : Brackets .leftBrace .rightBrace

/-- Tokens that close every bracket they open and no other. -/
def Closed (ts : List Token) : Prop := ∀ awaited, ts.foldlM awaitedAfter awaited = some awaited

/-- A token that is no bracket. -/
def NoBracket (t : Token) : Prop := ∀ awaited, awaitedAfter awaited t = some awaited

variable {ts us : List Token} {t : Token} {l l' : Int}

/-- Closed tokens are bracketed when nothing is open around them. -/
theorem Closed.wellBracketed (h : Closed ts) : WellBracketed ts := h []

/-- No tokens close nothing. -/
theorem Closed.nil : Closed [] := fun _ => rfl

/-- Closed tokens after closed tokens. -/
theorem Closed.append (h : Closed ts) (h' : Closed us) : Closed (ts ++ us) := by
  intro awaited
  rw [List.foldlM_append, h awaited]
  exact h' awaited

/-- A token that is no bracket changes nothing. -/
theorem Closed.cons (ht : NoBracket t) (h : Closed ts) : Closed (t :: ts) := by
  intro awaited
  rw [List.foldlM_cons, ht awaited]
  exact h awaited

/-- A pair of brackets around closed tokens, and closed tokens after it. -/
theorem Closed.within {opening closing : Symbol} (hpair : Brackets opening closing) (h : Closed ts)
    (h' : Closed us) : Closed (sym opening l :: ts ++ sym closing l' :: us) := by
  intro awaited
  have hopen : awaitedAfter awaited (sym opening l) = some (closing :: awaited) := by
    cases hpair <;> rfl
  have hclose : awaitedAfter (closing :: awaited) (sym closing l') = some awaited := by
    cases hpair <;> rfl
  rw [List.cons_append, List.foldlM_cons, hopen]
  show (ts ++ sym closing l' :: us).foldlM awaitedAfter (closing :: awaited) = some awaited
  rw [List.foldlM_append, h]
  show (sym closing l' :: us).foldlM awaitedAfter (closing :: awaited) = some awaited
  rw [List.foldlM_cons, hclose]
  exact h' awaited

/-- Keywords are no brackets. -/
theorem noBracket_word (k : Keyword) (line : Int) : NoBracket (word k line) := fun _ => rfl

/-- Names are no brackets. -/
theorem noBracket_ident (n : Name) : NoBracket (ident n) := fun _ => rfl

/-- A token that is an expression is no bracket. -/
theorem noBracket_of_atom {e : Expr Unit} (h : atom? t = some e) : NoBracket t := by
  cases isAtom_of_atom? h <;> exact fun _ => rfl

/-- A prefix operator is no bracket. -/
theorem noBracket_of_prefixOp {op : UnaryOp} (h : prefixOp? t = some op) : NoBracket t := by
  obtain ⟨line, rfl, -⟩ | ⟨line, rfl, -⟩ := prefixOp?_cases h
  · exact fun _ => rfl
  · exact fun _ => rfl

/-- An infix operator is no bracket. -/
theorem noBracket_of_join {p : Precedence} {f : Expr Unit → Expr Unit → Expr Unit}
    (h : p.join? t = some f) : NoBracket t := by
  obtain ⟨lexeme, line⟩ := t
  unfold Precedence.join? at h
  simp only at h
  split at h <;> cases h <;> exact fun _ => rfl

/-- Parameters, with their commas, hold no brackets. -/
theorem Parameters.closed {ns : List Name} (h : Parameters ts ns) : Closed ts := by
  cases h with
  | none => exact .nil
  | some h count =>
    clear count
    induction h with
    | one h => exact h ▸ .cons (noBracket_ident _) .nil
    | more h later ih => exact h ▸ .cons (noBracket_ident _) (.cons (fun _ => rfl) ih)

/-- A phrase closes the brackets that it opens, and no other. -/
theorem Derives.closed {nearest : Bool} {d : Nat} {p : Phrase} {t : p.Tree}
    (h : Derives nearest d p ts t) : Closed ts := by
  have hsemicolon : ∀ line, Closed [sym .semicolon line] := fun _ => .cons (fun _ => rfl) .nil
  -- A rule that has a bracket has the other one of its kind too, with phrases between them.
  induction h with
  | noClause | noMethod | noDeclaration => exact .nil
  | noStart => exact hsemicolon _
  | atom h => exact .cons (noBracket_of_atom h) .nil
  | grouping h ih => exact .within .parentheses ih .nil
  | lambda h ih => exact .cons (noBracket_word _ _) ih
  | callNothing h ih => exact ih.append (.within .parentheses .nil .nil)
  | call h ha _ ih iha =>
    rw [List.append_assoc]
    exact ih.append (.within .parentheses iha .nil)
  | get h ih => exact ih.append (.cons (fun _ => rfl) (.cons (noBracket_ident _) .nil))
  | unary hop h ih => exact .cons (noBracket_of_prefixOp hop) ih
  | join hl hop hr ihl ihr => exact ihl.append (.cons (noBracket_of_join hop) ihr)
  | tighter h ih | clause h ih | lastArgument h ih | varStart h ih | varDeclaration h ih
  | statement h ih => exact ih
  | assign h ih => exact .cons (noBracket_ident _) (.cons (fun _ => rfl) ih)
  | set h hv ih ihv =>
    exact ih.append (.cons (fun _ => rfl) (.cons (noBracket_ident _) (.cons (fun _ => rfl) ihv)))
  | argument h later ih ihl => exact ih.append (.cons (fun _ => rfl) ihl)
  | routine hp h ih =>
    rw [List.append_assoc]
    exact .within .parentheses hp.closed (.within .braces ih .nil)
  | method h later ih ihl => exact (Closed.cons (noBracket_ident _) ih).append ihl
  | expression h ih | expressionStart h ih => exact ih.append (hsemicolon _)
  | print h ih | «return» h ih => exact (Closed.cons (noBracket_word _ _) ih).append (hsemicolon _)
  | block h ih => exact .within .braces ih .nil
  | ifThen hc h ihc ih | «while» hc h ihc ih =>
    exact .cons (noBracket_word _ _) (.within .parentheses ihc ih)
  | ifElse hc h closed h' ihc ih ih' =>
    rw [List.append_assoc]
    have hbranches := fun line => ih.append (.cons (noBracket_word .else_ line) ih')
    exact .cons (noBracket_word _ _) (.within .parentheses ihc (hbranches _))
  | «for» hi hc hn h ihi ihc ihn ih =>
    have hclauses := fun line => (ihi.append ihc).append ((hsemicolon line).append ihn)
    exact .cons (noBracket_word _ _) (.within .parentheses (hclauses _) ih)
  | unset =>
    exact .cons (noBracket_word _ _) (.cons (noBracket_ident _) (hsemicolon _))
  | var h ih =>
    have hvalue := fun line => ih.append (hsemicolon line)
    exact .cons (noBracket_word _ _) (.cons (noBracket_ident _) (.cons (fun _ => rfl) (hvalue _)))
  | function h ih => exact .cons (noBracket_word _ _) (.cons (noBracket_ident _) ih)
  | «class» h ih => exact .cons (noBracket_word _ _) (.cons (noBracket_ident _) (.within .braces ih .nil))
  | declarations h later ih ihl => exact ih.append ihl

/-- In tokens that are parsed without a report, brackets are nested properly. -/
theorem wellBracketed_of_parsed {depth : Nat} {program : List (Stmt Unit)}
    (h : parseProgram depth ts = ⟨.ok program, [], []⟩) : WellBracketed ts :=
  (parseProgram_eq_iff.1 h).closed.wellBracketed

/-! ## Counting -/

/-- A token changes by as much the number of brackets that were opened and the number of those that were
closed or are awaited. -/
theorem count_awaitedAfter {opening closing : Symbol} (hpair : Brackets opening closing)
    {awaited later : List Symbol} (h : awaitedAfter awaited t = some later) :
    [t.lexeme].count (.symbol opening) + awaited.count closing =
      [t.lexeme].count (.symbol closing) + later.count closing := by
  obtain ⟨lexeme, line⟩ := t
  unfold awaitedAfter at h
  simp only at h
  split at h
  all_goals cases h
  all_goals cases hpair <;> simp_all <;> omega

/-- As many brackets are opened as are closed or awaited in the end. -/
theorem count_awaited {opening closing : Symbol} (hpair : Brackets opening closing)
    {awaited later : List Symbol} (h : ts.foldlM awaitedAfter awaited = some later) :
    (ts.map Token.lexeme).count (.symbol opening) + awaited.count closing =
      (ts.map Token.lexeme).count (.symbol closing) + later.count closing := by
  induction ts generalizing awaited with
  | nil =>
    cases h
    rfl
  | cons t ts ih =>
    rw [List.foldlM_cons] at h
    obtain ⟨next, hnext, h⟩ := Option.bind_eq_some_iff.1 h
    -- The tokens count one by one: what the first opens or closes, and then what the others do.
    have hfirst := count_awaitedAfter hpair hnext
    have hlater := ih h
    rw [List.map_cons, ← List.singleton_append, List.count_append, List.count_append]
    omega

/-- Where brackets are nested properly, as many are closed as are opened. -/
theorem WellBracketed.count_eq {opening closing : Symbol} (hpair : Brackets opening closing)
    (h : WellBracketed ts) :
    (ts.map Token.lexeme).count (.symbol opening) = (ts.map Token.lexeme).count (.symbol closing) :=
  count_awaited hpair h

end Treewalk.Grammar
