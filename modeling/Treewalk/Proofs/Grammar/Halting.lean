import Treewalk.Proofs.Grammar.Reading

/-!
# Why parsers stop

A parser `Halts n` if it stops before its end only for one of two reasons: it broke off, with a report,
or it was given at least `n` tokens and they were nested too deeply. Every parser of a level with room
for `depth` levels further in halts so with `depth + 1` (`Level.halts_ofDepth`), as a construct takes a
token of its own before it reads what stands one level further in. So a declaration that was given up
never counts as read (`reads_recovered`), and tokens that are fewer than the levels are read whatever
their nesting (`parseProgram_not_tooDeep`).
-/

namespace Treewalk.Parser

variable {α β : Type} {n : Nat}

/-- A parser stops early only with a report, or because at least `n` tokens are nested too deeply. -/
def Halts (n : Nat) (p : Parser α) : Prop :=
  ∀ ts, ((p.run ts).outcome = .error .broken → (p.run ts).errors ≠ []) ∧
    ((p.run ts).outcome = .error .tooDeep → n ≤ ts.length)

/-- A parser that stops with some tokens left stops so with fewer. -/
theorem Halts.mono {p : Parser α} {m : Nat} (h : p.Halts n) (hle : m ≤ n) : p.Halts m :=
  fun ts => ⟨(h ts).1, fun hdeep => Nat.le_trans hle ((h ts).2 hdeep)⟩

/-- A parser that is nested too deeply stops, whatever tokens there are. -/
theorem halts_tooDeep : (tooDeep : Parser α).Halts 0 :=
  fun _ => ⟨nofun, fun _ => Nat.zero_le _⟩

/-- A parser that takes nothing does not stop early. -/
theorem halts_pure (a : α) : (pure a : Parser α).Halts n :=
  fun _ => ⟨nofun, nofun⟩

/-- A parser that breaks off reports it. -/
theorem halts_fail (fault : SyntaxFault) : (fail fault : Parser α).Halts n :=
  fun _ => ⟨fun _ => List.cons_ne_nil _ _, nofun⟩

/-- A parser that breaks off at a token reports it. -/
theorem halts_failAt (t : Token) (fault : SyntaxFault) : (failAt t fault : Parser α).Halts n :=
  fun _ => ⟨fun _ => List.cons_ne_nil _ _, nofun⟩

/-- A report does not stop a parser. -/
theorem halts_note (fault : SyntaxFault) : (note fault).Halts n :=
  fun _ => ⟨nofun, nofun⟩

/-- A look ahead does not stop a parser. -/
theorem halts_lookahead : lookahead.Halts n :=
  fun _ => ⟨nofun, nofun⟩

/-- A parser after another stops as one of them does. -/
theorem Halts.bind {p : Parser α} {f : α → Parser β} (hp : p.Halts n) (hf : ∀ a, (f a).Halts n) :
    (p >>= f).Halts n := by
  intro ts
  cases hr : (p.run ts).outcome with
  | error halt =>
    rw [run_bind_error hr]
    -- An error of the first parser is the error of both.
    constructor
    · intro h
      injection h with h
      subst h
      exact (hp ts).1 hr
    · intro h
      injection h with h
      subst h
      exact (hp ts).2 hr
  | ok a =>
    rw [run_bind_ok hr]
    -- The second parser is given less, so its bound is one for both.
    have hrest := p.shrinks ts
    have hlater := hf a (p.run ts).rest
    exact ⟨fun h he => hlater.1 h (List.append_eq_nil_iff.1 he).2,
      fun h => Nat.le_trans (hlater.2 h) hrest⟩

/-- What is read may be changed without stopping. -/
theorem Halts.map {p : Parser α} (hp : p.Halts n) (f : α → β) : (f <$> p).Halts n :=
  hp.bind fun _ => halts_pure _

/-- The look at the next token does not stop a parser. -/
theorem halts_nextIs (lexeme : Lexeme) : (nextIs lexeme).Halts n := by
  refine halts_lookahead.bind fun us => ?_
  cases us with
  | nil => exact halts_pure _
  | cons t us => exact halts_pure _

/-- A report that depends on a condition does not stop a parser. -/
theorem halts_noteIf (condition : Prop) [Decidable condition] (fault : SyntaxFault) :
    (noteIf condition fault).Halts n := by
  unfold Parser.noteIf
  split
  · exact halts_note fault
  · exact halts_pure ()

/-- What may be left out before a token stops as it does when it is there. -/
theorem Halts.unlessNext {p : Parser α} (hp : p.Halts n) (lexeme : Lexeme) (nothing : α) :
    (unlessNext lexeme nothing p).Halts n := by
  refine (halts_nextIs lexeme).bind fun b => ?_
  split
  · exact halts_pure nothing
  · exact hp

/-- A parser that is chosen for a token may need one token more. -/
theorem Halts.select {choose : Token → Option (Parser α)} {otherwise : Parser α}
    (hc : ∀ t p, choose t = some p → p.Halts n) (ho : otherwise.Halts (n + 1)) :
    (Parser.select choose otherwise).Halts (n + 1) := by
  intro ts
  cases ts with
  | nil => exact ho []
  | cons t ts =>
    unfold Parser.select
    cases h : choose t with
    | some p =>
      have hp := hc t p h ts
      simp only [h]
      -- A parser that was chosen has one token less than the choice.
      exact ⟨hp.1, fun hdeep => Nat.succ_le_succ (hp.2 hdeep)⟩
    | none =>
      simp only [h]
      exact ho (t :: ts)

/-- A token that is expected is there or is reported as missing. -/
theorem halts_expect (accept : Token → Option α) (fault : SyntaxFault) :
    (expect accept fault).Halts n := by
  refine (Halts.select (fun t p h => ?_) (halts_fail fault)).mono (Nat.le_succ n)
  obtain ⟨a, -, rfl⟩ := Option.map_eq_some_iff.1 h
  exact halts_pure a

/-- What goes on by a token has one token more than what comes after that token. -/
theorem halts_extend {next : β → Token → Option (Parser β)}
    (h : ∀ b t p, next b t = some p → p.Halts n) (b : β) : (extend next b).Halts (n + 1) := by
  intro ts
  change ((extendRun next b ts).outcome = _ → (extendRun next b ts).errors ≠ []) ∧
    ((extendRun next b ts).outcome = _ → n + 1 ≤ ts.length)
  fun_induction extendRun next b ts with
  | case1 => exact ⟨fun h => (by cases h), fun h => by cases h⟩
  | case2 => exact ⟨fun h => (by cases h), fun h => by cases h⟩
  | case3 b t ts p hp b' mid errors hr later ih =>
    -- A round that succeeds has taken a token; what is left may stop later.
    have hrest := p.shrinks ts
    rw [hr] at hrest
    exact ⟨fun ho he => ih.1 ho (List.append_eq_nil_iff.1 he).2,
      fun ho => Nat.le_trans (ih.2 ho) (Nat.le_succ_of_le hrest)⟩
  -- A round that stops does so among the tokens after the first.
  | case4 b t ts p hp halt mid errors hr =>
    have hround := h b t p hp ts
    rw [hr] at hround
    exact ⟨hround.1, fun ho => Nat.succ_le_succ (hround.2 ho)⟩

/-- What is repeated stops as one of the items does. -/
theorem halts_repeatUntil {stop : Token → Bool} {item : Parser α} (progress : item.Progress)
    (h : item.Halts n) : (repeatUntil stop item progress).Halts n := by
  intro ts
  change ((repeatRun stop item progress ts).outcome = _ →
      (repeatRun stop item progress ts).errors ≠ []) ∧
    ((repeatRun stop item progress ts).outcome = _ → n ≤ ts.length)
  fun_induction repeatRun stop item progress ts with
  | case1 => exact ⟨fun h => (by cases h), fun h => by cases h⟩
  | case2 => exact ⟨fun h => (by cases h), fun h => by cases h⟩
  -- The other items are parsed from less.
  | case3 t ts hstop a mid errors hr later ih =>
    have hrest := item.shrinks (t :: ts)
    rw [hr] at hrest
    exact ⟨fun ho he => ih.1 (map_eq_error_iff.1 ho) (List.append_eq_nil_iff.1 he).2,
      fun ho => Nat.le_trans (ih.2 (map_eq_error_iff.1 ho)) hrest⟩
  -- An item that stops stops all.
  | case4 t ts hstop halt mid errors hr =>
    have hitem := h (t :: ts)
    rw [hr] at hitem
    constructor
    · intro ho
      cases ho
      exact hitem.1 rfl
    · intro ho
      cases ho
      exact hitem.2 rfl

/-- Operands with operators between them stop as one of the operands does. -/
theorem Halts.chain {operand : Parser α} (h : operand.Halts (n + 1)) (operator : Token → Option β)
    (join : β → Token → α → α → α) : (chain operator join operand).Halts (n + 1) := by
  refine h.bind fun first => halts_extend (fun left t p hp => ?_) first
  obtain ⟨op, -, rfl⟩ := Option.map_eq_some_iff.1 hp
  exact (h.mono (Nat.le_succ n)).map _

/-- Items with commas between them stop as one of the items does. -/
theorem Halts.commaSeparated {item : Parser α} (h : item.Halts n) (tooMany : SyntaxFault) :
    (commaSeparated item tooMany).Halts n := by
  refine h.bind fun first => ((halts_extend (n := n) (fun items t p hp => ?_) _).mono
    (Nat.le_succ n)).bind fun _ => halts_pure _
  unfold afterComma at hp
  split at hp
  · injection hp with hp
    subst hp
    exact (halts_noteIf _ _).bind fun _ => h.bind fun _ => halts_pure _
  · cases hp

end Treewalk.Parser

namespace Treewalk.Grammar

open Treewalk.Parser

/-! ## Recovery -/

/-- What is recovered from never counts as broken off. -/
theorem halts_recovered {α : Type} {p : Parser α} {n : Nat} (hp : p.Halts n) :
    (recovered p).Halts n := by
  intro ts
  have hdeep := (hp ts).2
  unfold recovered
  rcases hr : p.run ts with ⟨halt | a, mid, errors⟩
  · rw [hr] at hdeep
    simp only [hr]
    cases halt with
    | broken => exact ⟨fun h => (by cases h), fun h => by cases h⟩
    | tooDeep => exact ⟨fun h => (by cases h), fun _ => hdeep rfl⟩
  · simp only [hr]
    exact ⟨fun h => (by cases h), fun h => by cases h⟩

/-- What is recovered from is read only if nothing went wrong. -/
theorem reads_recovered {α : Type} {p : Parser α} {n : Nat} (hp : p.Halts n) {ts rest : List Token}
    {o : Option α} : (recovered p).Reads ts o rest ↔ ∃ a, o = some a ∧ p.Reads ts a rest := by
  have hbroken := (hp ts).1
  -- Giving up hides that a parser broke off, but not its report, and there is one.
  unfold Reads recovered
  rcases hr : p.run ts with ⟨halt | a, mid, errors⟩
  · rw [hr] at hbroken
    simp only [hr]
    cases halt with
    | broken =>
      constructor
      · intro h
        injection h with _ _ he
        exact absurd he (hbroken rfl)
      · rintro ⟨a, -, h⟩
        cases h
    | tooDeep =>
      constructor
      · intro h
        cases h
      · rintro ⟨a, -, h⟩
        cases h
  · simp only [hr]
    constructor
    · intro h
      cases h
      exact ⟨a, rfl, rfl⟩
    · rintro ⟨b, rfl, h⟩
      cases h
      rfl

/-! ## The parsers of a level -/

/-- Every parser of a level halts so. -/
structure Level.Halts (n : Nat) (inner : Level) : Prop where
  expression : inner.expression.Halts n
  operand : inner.operand.Halts n
  statement : inner.statement.Halts n
  block : inner.block.Halts n

section

variable {inner : Level} {n : Nat} (hi : inner.Halts n)
include hi

/-- A routine stops as its body does. -/
theorem halts_routine (name : String) : (routine inner name).Halts n :=
  (halts_expect _ _).bind fun _ =>
    (((halts_expect _ _).commaSeparated _).unlessNext _ _).bind fun _ =>
    (halts_expect _ _).bind fun _ => (halts_expect _ _).bind fun _ =>
    hi.block.bind fun _ => halts_pure _

/-- What stands alone takes a token before it comes to the level further in. -/
theorem halts_primary : (primary inner).Halts (n + 1) := by
  refine Halts.select (fun t p h => ?_) (halts_fail _)
  obtain ⟨lexeme, line⟩ := t
  simp only at h
  split at h <;> cases h
  case h_8 =>
    exact hi.expression.bind fun _ => (halts_expect _ _).bind fun _ => halts_pure _
  case h_9 => exact (halts_routine hi _).map _
  all_goals exact halts_pure _

/-- Calls take a parenthesis before they come to the level further in. -/
theorem halts_call : (call inner).Halts (n + 1) := by
  refine (halts_primary hi).bind fun callee => halts_extend (fun e t p h => ?_) callee
  unfold afterCallee at h
  split at h <;> cases h
  · exact ((hi.expression.commaSeparated _).unlessNext _ _).bind fun _ =>
      (halts_expect _ _).bind fun _ => halts_pure _
  · exact (halts_expect _ _).map _

/-- An operator takes a token before its operand, which stands one level further in. -/
theorem halts_operand : (operand inner).Halts (n + 1) := by
  refine Halts.select (fun t p h => ?_) (halts_call hi)
  obtain ⟨lexeme, line⟩ := t
  simp only at h
  split at h <;> cases h
  · exact hi.operand.map _
  · exact hi.operand.map _

/-- The operators between operands stop as their operands do. -/
theorem halts_disjunction : (disjunction inner).Halts (n + 1) :=
  Halts.chain (Halts.chain (Halts.chain (Halts.chain (Halts.chain (Halts.chain
    (halts_operand hi) _ _) _ _) _ _) _ _) _ _) _ _

/-- An assignment takes a token before its value, which stands one level further in. -/
theorem halts_expression : (expression inner).Halts (n + 1) := by
  refine (halts_disjunction hi).bind fun target => Halts.select (fun t p h => ?_) (halts_pure _)
  split at h
  · injection h with h
    subst h
    refine hi.expression.bind fun value => ?_
    unfold assignTo
    split
    · exact halts_pure _
    · exact halts_pure _
    · exact halts_failAt _ _
  · cases h

/-- A clause stops as its expression does. -/
theorem halts_clause (closing : Symbol) : (clause inner closing).Halts (n + 1) :=
  ((halts_expression hi).map _).unlessNext _ _

/-- A variable declaration stops as its initializer does. -/
theorem halts_varDeclaration : (varDeclaration inner).Halts (n + 1) := by
  refine (halts_expect _ _).bind fun _ => Halts.bind ?_ fun _ =>
    (halts_expect _ _).bind fun _ => halts_pure _
  refine Halts.select (fun t p h => ?_) (halts_pure _)
  split at h
  · injection h with h
    subst h
    exact ((halts_expression hi).mono (Nat.le_succ n)).map _
  · cases h

/-- An expression statement stops as its expression does. -/
theorem halts_expressionStatement : (expressionStatement inner).Halts (n + 1) :=
  (halts_expression hi).bind fun _ => (halts_expect _ _).bind fun _ => halts_pure _

/-- What stands after an `else` stops as a statement does. -/
theorem halts_elseBranch : (elseBranch inner).Halts n := by
  refine Halts.mono (Halts.select (fun t p h => ?_) (halts_pure _)) (Nat.le_succ n)
  split at h
  · injection h with h
    subst h
    exact hi.statement.map _
  · cases h

/-- What stands before the condition of a `for` loop stops as an expression does. -/
theorem halts_loopStart : (loopStart inner).Halts (n + 1) := by
  refine Halts.select (fun t p h => ?_) ((halts_expressionStatement hi).map _)
  split at h <;> cases h
  · exact halts_pure _
  · exact ((halts_varDeclaration hi).mono (Nat.le_succ n)).map _

/-- A statement takes its keyword or brace before it comes to the level further in. -/
theorem halts_statement : (statement inner).Halts (n + 1) := by
  have hexpression := (halts_expression hi).mono (Nat.le_succ n)
  have hclause := fun closing => (halts_clause hi closing).mono (Nat.le_succ n)
  refine Halts.select (fun t p h => ?_) (halts_expressionStatement hi)
  -- One case for each statement with a keyword, each one token further in.
  split at h <;> cases h
  · exact hexpression.bind fun _ => (halts_expect _ _).bind fun _ => halts_pure _
  · exact hi.block.map _
  · exact (halts_expect _ _).bind fun _ => hexpression.bind fun _ => (halts_expect _ _).bind fun _ =>
      hi.statement.bind fun _ => (halts_elseBranch hi).bind fun _ => halts_pure _
  · exact (halts_expect _ _).bind fun _ => hexpression.bind fun _ =>
      (halts_expect _ _).bind fun _ => hi.statement.bind fun _ => halts_pure _
  · exact (halts_expect _ _).bind fun _ => ((halts_loopStart hi).mono (Nat.le_succ n)).bind fun _ =>
      (hclause _).bind fun _ => (halts_expect _ _).bind fun _ => (hclause _).bind fun _ =>
      (halts_expect _ _).bind fun _ => hi.statement.bind fun _ => halts_pure _
  · exact (hclause _).bind fun _ => (halts_expect _ _).bind fun _ => halts_pure _

/-- A routine with a name stops as it does without. -/
theorem halts_namedRoutine (missingName : SyntaxFault) : (namedRoutine inner missingName).Halts n :=
  (halts_expect _ _).bind fun _ => (halts_routine hi _).bind fun _ => halts_pure _

/-- A declaration takes its keyword before it comes to the level further in. -/
theorem halts_strictDeclaration : (strictDeclaration inner).Halts (n + 1) := by
  -- A class, a function with a name or a variable is one token further in.
  refine halts_lookahead.bind fun us => Halts.select (fun t p h => ?_) (halts_statement hi)
  split at h
  · cases h
    exact (halts_expect _ _).bind fun _ => (halts_expect _ _).bind fun _ =>
      (halts_repeatUntil _ (halts_namedRoutine hi _)).bind fun _ =>
      (halts_expect _ _).bind fun _ => halts_pure _
  · split at h
    · cases h
      exact (halts_namedRoutine hi _).map _
    · cases h
  · cases h
    exact (halts_varDeclaration hi).mono (Nat.le_succ n)
  · cases h

/-- Declarations stop as one of them does. -/
theorem halts_declarations (stop : Token → Bool) : (declarations inner stop).Halts (n + 1) :=
  (halts_repeatUntil _ (halts_recovered (halts_strictDeclaration hi))).map _

/-- The declarations of a block stop as one of them does. -/
theorem halts_block : (block inner).Halts (n + 1) :=
  (halts_declarations hi _).bind fun _ => (halts_expect _ _).bind fun _ => halts_pure _

end

/-- A parser with room for so many levels stops only on as many tokens. -/
theorem Level.halts_ofDepth (depth : Nat) : (Level.ofDepth depth).Halts depth := by
  induction depth with
  | zero => exact ⟨halts_tooDeep, halts_tooDeep, halts_tooDeep, halts_tooDeep⟩
  | succ depth ih => exact ⟨halts_expression ih, halts_operand ih, halts_statement ih, halts_block ih⟩

/-- As many levels as tokens are enough. -/
theorem parseProgram_not_tooDeep {depth : Nat} {tokens : List Token} (h : tokens.length ≤ depth) :
    (parseProgram depth tokens).outcome ≠ .error .tooDeep := by
  intro hdeep
  have := (halts_declarations (Level.halts_ofDepth depth) _ tokens).2 hdeep
  omega

end Treewalk.Grammar
