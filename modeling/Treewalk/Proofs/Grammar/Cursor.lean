import Treewalk.Proofs.Grammar.Plan

/-!
# Reading at a place

A parser is given the tokens that are still to be read and gives back those that it leaves. A cursor
works otherwise: the list of tokens stays, an end mark closes it, and what changes is the place at which
the cursor stands. It looks at tokens by their indices, and only `advance` moves it. An error is reported
and then raised, and whatever is under way is left, up to the declaration around it, which catches the
error and skips to where reading goes on.

`Plan.exec` reads in this way what a parser reads that is put together by the plan. It writes a log of
each index that is looked at, of each report, raise and catch, and of each round of the loops over
declarations and methods. An index outside of the list stops it, and so does a loop that has more than a
given number of rounds.
-/

namespace Treewalk

/-- Tokens with a mark after the last of them, the end of the text. -/
def marked (tokens : List Token) : List (Option Token) := tokens.map some ++ [none]

/-- Whether a token is a name. -/
def Grammar.isIdentifier (t : Token) : Bool :=
  match t.lexeme with
  | .identifier _ => true
  | _ => false

namespace Cursor

/-- What a run writes down. -/
inductive Event where
  /-- What stands at an index was looked at. -/
  | looked (index : Int)
  | reported (e : SyntaxError)
  | raised (e : SyntaxError)
  | caught (e : SyntaxError)
  /-- A round of a loop is over that began at a place. A broken one was left by an error. -/
  | round (start : Nat) (broken : Bool)
deriving DecidableEq

/-- What was written down, and where the cursor stood then. -/
structure Entry where
  place : Nat
  event : Event

/-- Why a run stops before its end. -/
inductive Stop where
  | raised (e : SyntaxError)
  | tooDeep
  | outOfRange
  | unfinished

end Cursor

/-- A cursor: the index of the next token, and what was written down so far. -/
structure Cursor where
  place : Nat
  log : List Cursor.Entry

namespace Cursor

/-- A step of a cursor. -/
abbrev Run := EStateM Stop Cursor

variable {α β : Type}

/-- The cursor after it has written down an event. -/
def noted (s : Cursor) (event : Event) : Cursor := { s with log := s.log ++ [⟨s.place, event⟩] }

/-- A note does not move the cursor. -/
@[simp] theorem noted_place (s : Cursor) (event : Event) : (s.noted event).place = s.place := rfl

/-- The cursor past the next token. -/
def moved (s : Cursor) : Cursor := { s with place := s.place + 1 }

/-- Writes down an event. -/
def record (event : Event) : Run Unit := modify fun s => s.noted event

/-- Reports a fault at a token, or at the end of the text, and raises it. -/
def error (place : Option Token) (fault : SyntaxFault) : Run α := do
  record (.reported ⟨place, fault⟩)
  record (.raised ⟨place, fault⟩)
  throw (.raised ⟨place, fault⟩)

/-- A round of a loop, written down when it is over or left by an error. -/
def round (x : Run α) : Run α := fun s =>
  match x s with
  | .ok a s' => .ok a (s'.noted (.round s.place false))
  | .error (.raised e) s' => .error (.raised e) (s'.noted (.round s.place true))
  | .error stop s' => .error stop s'

section

variable (list : List (Option Token))

/-- What stands at an index: a token or the end mark. -/
def look (index : Int) : Run (Option Token) := do
  record (.looked index)
  if index < 0 then throw .outOfRange
  else
    match list[index.toNat]? with
    | some entry => return entry
    | none => throw .outOfRange

/-- The token at the cursor, which may be the end. -/
def peek : Run (Option Token) := do look list (← get).place

/-- The token before the cursor. -/
def previous : Run (Option Token) := do look list ((← get).place - 1)

/-- Whether the cursor is at the end. -/
def isAtEnd : Run Bool := do return (← peek list).isNone

/-- Moves past the next token, though not past the end mark, and looks back at it. -/
def advance : Run (Option Token) := do
  if ← isAtEnd list then previous list
  else
    modify moved
    previous list

/-- The next token, if there is one. -/
def next? : Run (Option Token) := do
  if ← isAtEnd list then return none else peek list

/-- Whether the next token is one of those that are asked for. -/
def check (accept : Token → Bool) : Run Bool := do return (← next? list).any accept

/-- Whether the token after the next one is accepted. -/
def checkNext (accept : Token → Bool) : Run Bool := do
  let index := (← get).place + 1
  if list.length ≤ index then return false else return (← look list index).any accept

/-- Whether a named function follows. -/
def functionFollows : Run Bool := do
  if ← check list fun t => decide (t.lexeme = .keyword .fn) then
    checkNext list Grammar.isIdentifier
  else return false

/-- The step chosen for a token, if there is a step for each parser that may be chosen. -/
def stepFor (choose : Token → Option (Parser α)) (x : ∀ t p, choose t = some p → Run α) (t : Token) :
    Option (Run α) :=
  match h : choose t with
  | some p => some (x t p h)
  | none => none

/-- Moves past the next token if there is a step chosen for it. -/
def select (choose : Token → Option (Run α)) (otherwise : Run α) : Run α := do
  match ← next? list with
  | some t =>
    match choose t with
    | some x => do
      let _ ← advance list
      x
    | none => otherwise
  | none => otherwise

/-- Goes on as long as there is a step chosen for the next token. -/
def extend (next : β → Token → Option (Run β)) : (rounds : Nat) → β → Run β
  | 0, _ => throw .unfinished
  | rounds + 1, b => do
    match ← next? list with
    | some t =>
      match next b t with
      | some x => do
        let _ ← advance list
        extend next rounds (← x)
      | none => return b
    | none => return b

/-- Repeats a step up to a token at which to stop, or to the end of the text. -/
def repeatUntil (stop : Token → Bool) (x : Run α) : (rounds : Nat) → Run (List α)
  | 0 => throw .unfinished
  | rounds + 1 => do
    match ← next? list with
    | some t =>
      if stop t then return []
      else
        let a ← round x
        return a :: (← repeatUntil stop x rounds)
    | none => return []

/-- Moves up to a place after a semicolon or before a token that starts a statement. -/
def skip : (rounds : Nat) → Run Unit
  | 0 => throw .unfinished
  | rounds + 1 => do
    if ← isAtEnd list then return ()
    else if (← previous list).any fun t => decide (t.lexeme = .symbol .semicolon) then return ()
    else if (← peek list).any Grammar.startsStatement then return ()
    else
      let _ ← advance list
      skip rounds

/-- Moves past one token in any case, and on to where the next statement is likely to begin. -/
def synchronize (rounds : Nat) : Run Unit := do
  let _ ← advance list
  skip list rounds

/-- Catches an error, and goes on where the next statement is likely to begin. -/
def recover (rounds : Nat) (x : Run α) : Run (Option α) := fun s =>
  match x s with
  | .ok a s' => .ok (some a) s'
  | .error (.raised e) s' =>
    (do
      record (.caught e)
      synchronize list rounds
      return none : Run (Option α)) s'
  | .error stop s' => .error stop s'

end

end Cursor

section

open Cursor Grammar

/-- Reads what a parser reads that is put together by the plan. -/
def Parser.Plan.exec {α : Type} {p : Parser α} (list : List (Option Token)) (rounds : Nat) :
    Plan p → Cursor.Run α
  | .pure a => return a
  | .tooDeep => throw .tooDeep
  | .fail fault _ => do error (← peek list) fault
  | .failAt t _ => error (some t) .assignmentTarget
  | .note fault _ => do record (.reported ⟨← peek list, fault⟩)
  | .nextIs lexeme => check list fun t => decide (t.lexeme = lexeme)
  | .lookForFunction hf => do exec list rounds (hf (← functionFollows list))
  | .bind hp hf => do exec list rounds (hf (← exec list rounds hp))
  | @choice _ c _ _ _ hp hq => if c then exec list rounds hp else exec list rounds hq
  | @select _ choose _ hc ho =>
    Cursor.select list (stepFor choose fun t p h => exec list rounds (hc t p h))
      (exec list rounds ho)
  | @extend _ next hn b =>
    Cursor.extend list (fun b => stepFor (next b) fun t p h => exec list rounds (hn b t p h)) rounds b
  | .repeatUntil stop _ h => Cursor.repeatUntil list stop (exec list rounds h) rounds
  | .recovered h => recover list rounds (exec list rounds h)

/-- Reads a program, at most `depth` levels deep. -/
def Cursor.parse (list : List (Option Token)) (depth rounds : Nat) : Cursor.Run (List (Stmt Unit)) :=
  (declarationsPlan (Level.planOfDepth depth) fun _ => false).exec list rounds

end

end Treewalk
