import Treewalk.Grammar.Expression

/-!
# The grammar of statements and declarations

A declaration that is broken off is given up: its error is reported, and reading goes on where the
next statement is likely to begin (`recovered`). So each broken statement costs one report, and the
statements after it are still read.
-/

namespace Treewalk.Grammar

open Treewalk.Parser

/-- The keywords at which a broken declaration is taken to be over. -/
def startsStatement (t : Token) : Bool :=
  t.lexeme ∈ [.keyword .class_, .keyword .fn, .keyword .for_, .keyword .if_, .keyword .while_,
    .keyword .print, .keyword .return_]

/-- What remains after the next token at which to go on: after a semicolon, and before a keyword that
starts a statement. The first argument is the token taken last. -/
def skipAfter (last : Token) : List Token → List Token
  | [] => []
  | t :: ts =>
    if last.lexeme = .symbol .semicolon ∨ startsStatement t then t :: ts else skipAfter t ts

/-- Where reading goes on after an error: past one token in any case, and from there on where the next
statement is likely to begin. -/
def resume : List Token → List Token
  | [] => []
  | t :: ts => skipAfter t ts

/-- Skipping does not give tokens back. -/
theorem skipAfter_length (last : Token) (ts : List Token) :
    (skipAfter last ts).length ≤ ts.length := by
  fun_induction skipAfter last ts with
  | case1 => exact Nat.le_refl _
  | case2 => exact Nat.le_refl _
  | case3 _ _ _ _ ih => exact Nat.le_succ_of_le ih

/-- At least the token at which parsing broke is skipped. -/
theorem resume_length (ts : List Token) : (resume ts).length ≤ ts.length - 1 := by
  cases ts with
  | nil => exact Nat.le_refl _
  | cons t ts => exact skipAfter_length t ts

/-- A parser after whose errors reading goes on with the next statement. -/
def recovered {α : Type} (p : Parser α) : Parser (Option α) where
  run ts :=
    match p.run ts with
    | ⟨.ok a, rest, errors⟩ => ⟨.ok (some a), rest, errors⟩
    | ⟨.error .broken, rest, errors⟩ => ⟨.ok none, resume rest, errors⟩
    | ⟨.error .tooDeep, rest, errors⟩ => ⟨.error .tooDeep, rest, errors⟩
  shrinks ts := by
    have first := p.shrinks ts
    split
    · next h => rwa [h] at first
    · next rest _ h =>
      rw [h] at first
      exact Nat.le_trans (Nat.le_trans (resume_length rest) (Nat.sub_le _ _)) first
    · next h => rwa [h] at first

/-- A parser that makes progress when it succeeds does so too when it is recovered from. -/
theorem progress_recovered {α : Type} {p : Parser α} (hp : p.Progress) :
    (recovered p).Progress := by
  intro ts a hts ha
  have first := p.shrinks ts
  have progress := fun a => hp ts a hts
  have : 0 < ts.length := List.length_pos_iff.2 hts
  simp only [recovered] at ha ⊢
  rcases hr : p.run ts with ⟨outcome | a, rest, errors⟩
  · rw [hr] at first ha
    cases outcome with
    | broken =>
      -- At least one token was left when parsing broke, or it had been taken before.
      have := resume_length rest
      simp only at first ⊢
      omega
    | tooDeep => cases ha
  · rw [hr] at progress
    exact progress a rfl

variable (inner : Level)

/-- The initial value of a variable declaration, if it has one. -/
def initialValue : Parser (Option (Expr Unit)) :=
  select (fun t => if t.lexeme = .symbol .equal then some (some <$> expression inner) else none)
    (pure none)

/-- A variable declaration after its keyword. -/
def varDeclaration : Parser (Stmt Unit) := do
  let name ← Parser.name .variableName
  let initializer ← initialValue inner
  let _ ← symbol .semicolon .declarationEnd
  return .var name initializer

/-- A named routine after its keyword, if it has one. -/
def namedRoutine (missingName : SyntaxFault) : Parser (Name × Routine Unit) := do
  let name ← Parser.name missingName
  return (name, ← routine inner name.text)

/-- A method makes progress, as it has a name. -/
theorem progress_namedRoutine (missingName : SyntaxFault) :
    (namedRoutine inner missingName).Progress :=
  (progress_expect _ _).bind _

/-- A class declaration after its keyword. -/
def classDeclaration : Parser (Stmt Unit) := do
  let name ← Parser.name .className
  let _ ← symbol .leftBrace .classBodyOpening
  let methods ← repeatUntil (fun t => decide (t.lexeme = .symbol .rightBrace))
    (namedRoutine inner .methodName) (progress_namedRoutine inner _)
  let _ ← symbol .rightBrace .classBodyClosing
  return .class name methods

/-- An expression statement. -/
def expressionStatement : Parser (Stmt Unit) := do
  let value ← expression inner
  let _ ← symbol .semicolon .expressionEnd
  return .expression value

/-- A print statement after its keyword. -/
def printStatement : Parser (Stmt Unit) := do
  let value ← expression inner
  let _ ← symbol .semicolon .printEnd
  return .print value

/-- The second branch of a conditional, if it has one. -/
def elseBranch : Parser (Option (Stmt Unit)) :=
  select (fun t => if t.lexeme = .keyword .else_ then some (some <$> inner.statement) else none)
    (pure none)

/-- A conditional after its keyword. An `else` belongs to the nearest one that is still open. -/
def ifStatement : Parser (Stmt Unit) := do
  let _ ← symbol .leftParen (.headOpening .if_)
  let condition ← expression inner
  let _ ← symbol .rightParen .ifConditionClosing
  let onTrue ← inner.statement
  return .branch condition onTrue (← elseBranch inner)

/-- A `while` loop after its keyword. -/
def whileStatement : Parser (Stmt Unit) := do
  let _ ← symbol .leftParen (.headOpening .while_)
  let condition ← expression inner
  let _ ← symbol .rightParen .whileConditionClosing
  return .while condition (← inner.statement)

/-- An expression, or nothing where the given symbol follows. -/
def clause (closing : Symbol) : Parser (Option (Expr Unit)) :=
  unlessNext (.symbol closing) none (some <$> expression inner)

/-- What stands before the condition of a `for` loop, its semicolon included. -/
def loopStart : Parser (Option (Stmt Unit)) :=
  select (fun t => match t.lexeme with
    | .symbol .semicolon => some (pure none)
    | .keyword .var => some (some <$> varDeclaration inner)
    | _ => none) (some <$> expressionStatement inner)

/-- A `for` loop after its keyword. -/
def forStatement : Parser (Stmt Unit) := do
  let _ ← symbol .leftParen (.headOpening .for_)
  let initial ← loopStart inner
  let condition ← clause inner .semicolon
  let _ ← symbol .semicolon .loopConditionEnd
  let next ← clause inner .rightParen
  let _ ← symbol .rightParen .forClausesClosing
  return .forLoop initial condition next (← inner.statement)

/-- A return statement after its keyword, which is on the given line. -/
def returnStatement (line : Int) : Parser (Stmt Unit) := do
  let value ← clause inner .semicolon
  let _ ← symbol .semicolon .returnEnd
  return .return line value

/-- A statement that is not a declaration. -/
def statement : Parser (Stmt Unit) :=
  select (fun t => match t.lexeme with
    | .keyword .print => some (printStatement inner)
    | .symbol .leftBrace => some (Stmt.block <$> inner.block)
    | .keyword .if_ => some (ifStatement inner)
    | .keyword .while_ => some (whileStatement inner)
    | .keyword .for_ => some (forStatement inner)
    | .keyword .return_ => some (returnStatement inner t.line)
    | _ => none) (expressionStatement inner)

/-- Whether a named function follows. The keyword alone begins an anonymous one, an expression. -/
def namedFunctionFollows : List Token → Bool
  | ⟨.keyword .fn, _⟩ :: ⟨.identifier _, _⟩ :: _ => true
  | _ => false

/-- A declaration or a statement, given up at its first error. -/
def strictDeclaration : Parser (Stmt Unit) := do
  let named := namedFunctionFollows (← lookahead)
  select (fun t => match t.lexeme with
    | .keyword .class_ => some (classDeclaration inner)
    | .keyword .fn =>
      if named then
        some ((fun (name, routine) => Stmt.function name routine) <$>
          namedRoutine inner .functionName)
      else none
    | .keyword .var => some (varDeclaration inner)
    | _ => none) (statement inner)

/-- A declaration makes progress: a statement takes its keyword or its brace, or ends in a
semicolon. -/
theorem progress_strictDeclaration : (strictDeclaration inner).Progress :=
  Progress.of_bind _ fun _ => Progress.select <| Progress.select <|
    Progress.of_bind _ fun _ => (progress_expect _ _).bind _

/-- A declaration or a statement, and none where one was given up. -/
def declaration : Parser (Option (Stmt Unit)) := recovered (strictDeclaration inner)

/-- Declarations up to a token at which to stop, or to the end of the text. -/
def declarations (stop : Token → Bool) : Parser (List (Stmt Unit)) :=
  (List.filterMap id) <$>
    repeatUntil stop (declaration inner) (progress_recovered (progress_strictDeclaration inner))

/-- The declarations of a block after its opening brace. -/
def block : Parser (List (Stmt Unit)) := do
  let body ← declarations inner fun t => decide (t.lexeme = .symbol .rightBrace)
  let _ ← symbol .rightBrace .blockClosing
  return body

/-- The parsers of a level, given those of the level further in. -/
def levelAround : Level := ⟨expression inner, operand inner, statement inner, block inner⟩

/-- The parsers of a level that holds at most the given number of levels. -/
def Level.ofDepth : Nat → Level
  | 0 => .exhausted
  | depth + 1 => levelAround (ofDepth depth)

end Treewalk.Grammar

namespace Treewalk

/-- The statements of a program, with errors reported and broken statements left out, at most
`depth` levels deep. -/
def parseProgram (depth : Nat) (tokens : List Token) : Parsed (List (Stmt Unit)) :=
  (Grammar.declarations (Grammar.Level.ofDepth depth) fun _ => false).run tokens

end Treewalk
