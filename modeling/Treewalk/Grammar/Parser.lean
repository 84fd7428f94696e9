import Treewalk.Grammar.Fault
import Treewalk.Tree

/-!
# Parsers

A parser reads a list of tokens from its beginning, and gives back what remains of it, the errors that
it reported on the way, and either a value or a reason why it stopped short. It never gives back more
than it was given, and that is part of its type (`Parser.shrinks`), so the loops below end: each round
of `extend` takes a token, and each round of `repeatUntil` has a parser that makes progress.
-/

namespace Treewalk

/-- Why a parser stops before its end. -/
inductive Halt where
  /-- A syntax error was reported, and the declaration at hand is given up. -/
  | broken
  /-- The text is nested too deeply. -/
  | tooDeep
deriving DecidableEq, Repr

/-- What a parser makes of a list of tokens. -/
structure Parsed (α : Type) where
  outcome : Except Halt α
  rest : List Token
  errors : List SyntaxError

/-- A parser: how it reads tokens, and that it adds none. -/
structure Parser (α : Type) where
  run : List Token → Parsed α
  shrinks : ∀ ts, (run ts).rest.length ≤ ts.length

namespace Parser

variable {α β : Type}

/-- A parser makes progress if it takes at least one token whenever it succeeds before the end. -/
def Progress (p : Parser α) : Prop :=
  ∀ ts a, ts ≠ [] → (p.run ts).outcome = .ok a → (p.run ts).rest.length < ts.length

/-! ## Sequences -/

/-- Reads nothing. -/
protected def pure (a : α) : Parser α where
  run ts := ⟨.ok a, ts, []⟩
  shrinks _ := Nat.le_refl _

/-- Reads with one parser and then, if it succeeds, with the next. -/
protected def bind (p : Parser α) (f : α → Parser β) : Parser β where
  run ts :=
    match p.run ts with
    | ⟨.ok a, rest, errors⟩ =>
      let later := (f a).run rest
      ⟨later.outcome, later.rest, errors ++ later.errors⟩
    | ⟨.error halt, rest, errors⟩ => ⟨.error halt, rest, errors⟩
  shrinks ts := by
    have first := p.shrinks ts
    split
    · next a rest errors h =>
      rw [h] at first
      exact Nat.le_trans ((f a).shrinks rest) first
    · next h => rwa [h] at first

/-- Parsers are run one after another; errors that were recovered from are collected. -/
instance : Monad Parser where
  pure := Parser.pure
  bind := Parser.bind

/-- What a sequence makes of tokens if its first parser succeeds. -/
theorem run_bind_ok {p : Parser α} {f : α → Parser β} {ts : List Token} {a : α}
    (h : (p.run ts).outcome = .ok a) :
    (p >>= f).run ts = ⟨((f a).run (p.run ts).rest).outcome, ((f a).run (p.run ts).rest).rest,
      (p.run ts).errors ++ ((f a).run (p.run ts).rest).errors⟩ := by
  show (Parser.bind p f).run ts = _
  unfold Parser.bind
  rcases hr : p.run ts with ⟨outcome, rest, errors⟩
  rw [hr] at h
  simp only at h
  subst h
  simp only [hr]

/-- What a sequence makes of tokens if its first parser stops. -/
theorem run_bind_error {p : Parser α} {f : α → Parser β} {ts : List Token} {halt : Halt}
    (h : (p.run ts).outcome = .error halt) :
    (p >>= f).run ts = ⟨.error halt, (p.run ts).rest, (p.run ts).errors⟩ := by
  show (Parser.bind p f).run ts = _
  unfold Parser.bind
  rcases hr : p.run ts with ⟨outcome, rest, errors⟩
  rw [hr] at h
  simp only at h
  subst h
  simp only [hr]

/-- A sequence makes progress if its first parser does. -/
theorem Progress.bind {p : Parser α} (hp : p.Progress) (f : α → Parser β) :
    (p >>= f).Progress := by
  intro ts b hts hb
  cases h : (p.run ts).outcome with
  | error halt => rw [run_bind_error h] at hb; cases hb
  | ok a =>
    rw [run_bind_ok h] at hb ⊢
    exact Nat.lt_of_le_of_lt ((f a).shrinks _) (hp ts a hts h)

/-- A sequence makes progress if its second parser does, whatever the first gives. -/
theorem Progress.of_bind (p : Parser α) {f : α → Parser β} (hf : ∀ a, (f a).Progress) :
    (p >>= f).Progress := by
  intro ts b hts hb
  cases h : (p.run ts).outcome with
  | error halt => rw [run_bind_error h] at hb; cases hb
  | ok a =>
    rw [run_bind_ok h] at hb ⊢
    have first := p.shrinks ts
    -- If the first parser takes everything it has got further, else the second one does.
    by_cases hr : (p.run ts).rest = []
    · have later := (f a).shrinks (p.run ts).rest
      rw [hr] at later
      have : 0 < ts.length := List.length_pos_iff.2 hts
      simp only [hr, List.length_nil, Nat.le_zero] at later ⊢
      omega
    · exact Nat.lt_of_lt_of_le (hf a _ b hr hb) first

/-! ## Errors -/

/-- Stops without a report: the text is nested too deeply. -/
def tooDeep : Parser α where
  run ts := ⟨.error .tooDeep, ts, []⟩
  shrinks _ := Nat.le_refl _

/-- Reports a fault at a token and stops. -/
def failAt (t : Token) (fault : SyntaxFault) : Parser α where
  run ts := ⟨.error .broken, ts, [⟨some t, fault⟩]⟩
  shrinks _ := Nat.le_refl _

/-- Reports a fault at the next token and stops. The token is not taken. -/
def fail (fault : SyntaxFault) : Parser α where
  run ts := ⟨.error .broken, ts, [⟨ts.head?, fault⟩]⟩
  shrinks _ := Nat.le_refl _

/-- Reports a fault at the next token and goes on. -/
def note (fault : SyntaxFault) : Parser Unit where
  run ts := ⟨.ok (), ts, [⟨ts.head?, fault⟩]⟩
  shrinks _ := Nat.le_refl _

/-- Reports a fault at the next token if a condition holds, and goes on. -/
def noteIf (condition : Prop) [Decidable condition] (fault : SyntaxFault) : Parser Unit :=
  if condition then note fault else pure ()

/-- A parser that always stops makes progress, as it never succeeds. -/
theorem progress_fail (fault : SyntaxFault) : (fail fault : Parser α).Progress :=
  fun _ _ _ h => nomatch h

/-! ## Tokens -/

/-- The tokens that are still to be read. -/
def lookahead : Parser (List Token) where
  run ts := ⟨.ok ts, ts, []⟩
  shrinks _ := Nat.le_refl _

/-- Whether the next token has the given lexeme. -/
def nextIs (lexeme : Lexeme) : Parser Bool := do
  match ← lookahead with
  | t :: _ => pure (decide (t.lexeme = lexeme))
  | [] => pure false

/-- Reads with a parser, unless the next token has the given lexeme: then nothing is read. -/
def unlessNext (lexeme : Lexeme) (nothing : α) (p : Parser α) : Parser α := do
  if ← nextIs lexeme then pure nothing else p

/-- Takes the next token and goes on with the parser chosen for it, or leaves the token and goes on
otherwise. -/
def select (choose : Token → Option (Parser α)) (otherwise : Parser α) : Parser α where
  run
    | [] => otherwise.run []
    | t :: ts =>
      match choose t with
      | some p => p.run ts
      | none => otherwise.run (t :: ts)
  shrinks ts := by
    cases ts with
    | nil => exact otherwise.shrinks []
    | cons t ts =>
      simp only
      split
      · next p _ => exact Nat.le_succ_of_le (p.shrinks ts)
      · exact otherwise.shrinks (t :: ts)

/-- A selection makes progress if it does so where no token is taken. -/
theorem Progress.select {choose : Token → Option (Parser α)} {otherwise : Parser α}
    (h : otherwise.Progress) : (Parser.select choose otherwise).Progress := by
  intro ts a hts ha
  cases ts with
  | nil => exact absurd rfl hts
  | cons t ts =>
    simp only [Parser.select] at ha ⊢
    cases hc : choose t with
    | some p => exact Nat.lt_succ_of_le (p.shrinks ts)
    | none =>
      rw [hc] at ha
      exact h (t :: ts) a hts ha

/-- Takes the token that a function accepts, or reports a fault and stops. -/
def expect (accept : Token → Option α) (fault : SyntaxFault) : Parser α :=
  select (fun t => (accept t).map pure) (fail fault)

/-- Whether a token is accepted or not, nothing is given back. -/
theorem progress_expect (accept : Token → Option α) (fault : SyntaxFault) :
    (expect accept fault).Progress :=
  Progress.select (progress_fail fault)

/-- Takes a symbol and gives its line. -/
def symbol (s : Symbol) (fault : SyntaxFault) : Parser Int :=
  expect (fun t => if t.lexeme = .symbol s then some t.line else none) fault

/-- Takes an identifier. -/
def name (fault : SyntaxFault) : Parser Name :=
  expect (fun t => match t.lexeme with
    | .identifier text => some ⟨text, t.line⟩
    | _ => none) fault

/-! ## Loops -/

/-- As long as the next token goes on with what was read so far, takes it and reads what follows. -/
def extendRun (next : β → Token → Option (Parser β)) (b : β) : List Token → Parsed β
  | [] => ⟨.ok b, [], []⟩
  | t :: ts =>
    match next b t with
    | none => ⟨.ok b, t :: ts, []⟩
    | some p =>
      match _h : p.run ts with
      | ⟨.ok b', rest, errors⟩ =>
        let later := extendRun next b' rest
        ⟨later.outcome, later.rest, errors ++ later.errors⟩
      | ⟨.error halt, rest, errors⟩ => ⟨.error halt, rest, errors⟩
termination_by ts => ts.length
decreasing_by
  have := p.shrinks ts
  rw [_h] at this
  simpa using Nat.lt_succ_of_le this

/-- Each round takes a token, so the rest only gets shorter. -/
theorem extendRun_shrinks (next : β → Token → Option (Parser β)) (b : β) (ts : List Token) :
    (extendRun next b ts).rest.length ≤ ts.length := by
  fun_induction extendRun next b ts with
  | case1 => exact Nat.le_refl _
  | case2 => exact Nat.le_refl _
  | case3 b t ts p hp b' rest errors h later ih =>
    have := p.shrinks ts
    rw [h] at this
    exact Nat.le_trans ih (Nat.le_succ_of_le this)
  | case4 b t ts p hp halt rest errors h =>
    have := p.shrinks ts
    rw [h] at this
    exact Nat.le_succ_of_le this

/-- As long as the next token goes on with what was read so far, takes it and reads what follows. -/
def extend (next : β → Token → Option (Parser β)) (b : β) : Parser β where
  run := extendRun next b
  shrinks := extendRun_shrinks next b

/-- Reads items up to a token at which to stop, or to the end of the text. -/
def repeatRun (stop : Token → Bool) (item : Parser α) (progress : item.Progress) :
    List Token → Parsed (List α)
  | [] => ⟨.ok [], [], []⟩
  | t :: ts =>
    if stop t then ⟨.ok [], t :: ts, []⟩
    else
      match _h : item.run (t :: ts) with
      | ⟨.ok a, rest, errors⟩ =>
        let later := repeatRun stop item progress rest
        ⟨later.outcome.map (a :: ·), later.rest, errors ++ later.errors⟩
      | ⟨.error halt, rest, errors⟩ => ⟨.error halt, rest, errors⟩
termination_by ts => ts.length
decreasing_by
  have := progress (t :: ts) a (List.cons_ne_nil t ts)
  rw [_h] at this
  exact this rfl

/-- Each item gets further, so the rest only gets shorter. -/
theorem repeatRun_shrinks (stop : Token → Bool) (item : Parser α) (progress : item.Progress)
    (ts : List Token) : (repeatRun stop item progress ts).rest.length ≤ ts.length := by
  fun_induction repeatRun stop item progress ts with
  | case1 => exact Nat.le_refl _
  | case2 => exact Nat.le_refl _
  | case3 t ts hstop a rest errors h later ih =>
    have := item.shrinks (t :: ts)
    rw [h] at this
    exact Nat.le_trans ih this
  | case4 t ts hstop halt rest errors h =>
    have := item.shrinks (t :: ts)
    rw [h] at this
    exact this

/-- Reads items up to a token at which to stop, or to the end of the text. -/
def repeatUntil (stop : Token → Bool) (item : Parser α) (progress : item.Progress) :
    Parser (List α) where
  run := repeatRun stop item progress
  shrinks := repeatRun_shrinks stop item progress

/-- Operands with operators between them, put together from the left. -/
def chain (operator : Token → Option β) (join : β → Token → α → α → α) (operand : Parser α) :
    Parser α := do
  let first ← operand
  extend (fun left t => (operator t).map fun op => join op t left <$> operand) first

/-- One more item after some. It is reported at its first token if there are too many then. -/
def anotherItem (item : Parser α) (tooMany : SyntaxFault) (items : Array α) : Parser (Array α) := do
  noteIf (maxArguments ≤ items.size) tooMany
  return items.push (← item)

/-- What goes on after some items: a comma and one more item. -/
def afterComma (item : Parser α) (tooMany : SyntaxFault) (items : Array α) (t : Token) :
    Option (Parser (Array α)) :=
  if t.lexeme = .symbol .comma then some (anotherItem item tooMany items) else none

/-- Items with commas between them. Each item beyond the greatest number is reported. -/
def commaSeparated (item : Parser α) (tooMany : SyntaxFault) : Parser (List α) := do
  let first ← item
  let items ← extend (afterComma item tooMany) #[first]
  return items.toList

end Parser

end Treewalk
