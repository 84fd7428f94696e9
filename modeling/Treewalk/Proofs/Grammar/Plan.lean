import Treewalk.Proofs.Grammar.Boundary
import Treewalk.Proofs.Grammar.Given

/-!
# How the parsers of the grammar are built

Every parser of the grammar is put together from a few small ones, in a few ways. A `Plan` of a parser
says how: it has one constructor for each small parser and for each way, and its type names the parser
that is put together. So there is no plan of anything else, and what is said of plans, by induction on
them, is said of all parsers of the grammar, whatever the depth (`Level.planOfDepth`).

Only two of the small parsers break off. One reports at the next token; the other reports an equals sign
that was taken before, and is the only parser that is given a token to report at. A parser that reports
and goes on reports a list that is too long, and nothing else does (`SyntaxFault.isLimit`).
-/

namespace Treewalk

/-- Whether a fault is that a list is too long, after which reading goes on. -/
def SyntaxFault.isLimit : SyntaxFault → Bool
  | tooManyParameters | tooManyArguments => true
  | _ => false

namespace Parser

/-- How a parser is put together. -/
inductive Plan : {α : Type} → Parser α → Type 1
  | pure {α : Type} (a : α) : Plan (pure a : Parser α)
  | tooDeep {α : Type} : Plan (tooDeep : Parser α)
  | fail {α : Type} (fault : SyntaxFault) (h : fault.isLimit = false) : Plan (fail fault : Parser α)
  | failAt {α : Type} (t : Token) (ht : t.lexeme = .symbol .equal) :
    Plan (failAt t .assignmentTarget : Parser α)
  | note (fault : SyntaxFault) (h : fault.isLimit = true) : Plan (note fault)
  | nextIs (lexeme : Lexeme) : Plan (nextIs lexeme)
  /-- Looks whether a named function follows, and does not take it. -/
  | lookForFunction {α : Type} {f : Bool → Parser α} (hf : ∀ named, Plan (f named)) :
    Plan (lookahead >>= fun us => f (Grammar.namedFunctionFollows us))
  | bind {α β : Type} {p : Parser α} {f : α → Parser β} (hp : Plan p) (hf : ∀ a, Plan (f a)) :
    Plan (p >>= f)
  | choice {α : Type} (c : Prop) [Decidable c] {p q : Parser α} (hp : Plan p) (hq : Plan q) :
    Plan (if c then p else q)
  | select {α : Type} {choose : Token → Option (Parser α)} {otherwise : Parser α}
    (hc : ∀ t p, choose t = some p → Plan p) (ho : Plan otherwise) : Plan (select choose otherwise)
  | extend {β : Type} {next : β → Token → Option (Parser β)}
    (h : ∀ b t p, next b t = some p → Plan p) (b : β) : Plan (extend next b)
  | repeatUntil {α : Type} (stop : Token → Bool) {item : Parser α} (progress : item.Progress)
    (h : Plan item) : Plan (repeatUntil stop item progress)
  | recovered {α : Type} {p : Parser α} (h : Plan p) : Plan (Grammar.recovered p)

namespace Plan

variable {α β : Type}

/-- The plan of a parser whose results are changed. -/
def map {p : Parser α} (hp : Plan p) (f : α → β) : Plan (f <$> p) := hp.bind fun _ => .pure _

/-- The plan of a report that depends on a condition. -/
def noteIf (condition : Prop) [Decidable condition] (fault : SyntaxFault)
    (h : fault.isLimit = true) : Plan (noteIf condition fault) :=
  .choice condition (.note fault h) (.pure ())

/-- The plan of what may be left out before a token. -/
def unlessNext {p : Parser α} (hp : Plan p) (lexeme : Lexeme) (nothing : α) :
    Plan (unlessNext lexeme nothing p) :=
  .bind (.nextIs lexeme) fun _ => .choice _ (.pure nothing) hp

/-- The plan of a token that is expected. -/
def expect (accept : Token → Option α) (fault : SyntaxFault) (h : fault.isLimit = false) :
    Plan (expect accept fault) := by
  refine .select (fun t p hp => ?_) (.fail fault h)
  cases ha : accept t with
  | none =>
    rw [ha] at hp
    cases hp
  | some a =>
    rw [ha] at hp
    exact Option.some.inj hp ▸ .pure a

/-- The plan of operands with operators between them. -/
def chain {operand : Parser α} (h : Plan operand) (operator : Token → Option β)
    (join : β → Token → α → α → α) : Plan (chain operator join operand) := by
  refine h.bind fun first => .extend (fun left t p hp => ?_) first
  cases ho : operator t with
  | none =>
    rw [ho] at hp
    cases hp
  | some op =>
    rw [ho] at hp
    exact Option.some.inj hp ▸ h.map _

/-- The plan of items with commas between them. -/
def commaSeparated {item : Parser α} (hitem : Plan item) (tooMany : SyntaxFault)
    (h : tooMany.isLimit = true) : Plan (commaSeparated item tooMany) := by
  refine hitem.bind fun first => .bind (.extend (fun items t p hp => ?_) _) fun _ => .pure _
  unfold afterComma at hp
  split at hp
  · exact Option.some.inj hp ▸ (noteIf _ _ h).bind fun _ => hitem.bind fun _ => .pure _
  · cases hp

end Plan

end Parser

namespace Grammar

open Treewalk.Parser

/-- A plan of every parser of a level. -/
structure Level.Plan (inner : Level) where
  expression : Parser.Plan inner.expression
  operand : Parser.Plan inner.operand
  statement : Parser.Plan inner.statement
  block : Parser.Plan inner.block

section

variable {inner : Level} (plan : inner.Plan)

/-- The plan of a routine. -/
def routinePlan (name : String) : Plan (routine inner name) :=
  .bind (.expect _ _ rfl) fun _ =>
    .bind (((Plan.expect _ _ rfl).commaSeparated _ rfl).unlessNext _ _) fun _ =>
    .bind (.expect _ _ rfl) fun _ => .bind (.expect _ _ rfl) fun _ =>
    plan.block.bind fun _ => .pure _

/-- The plan of what stands alone. -/
def primaryPlan : Plan (primary inner) := by
  refine .select (fun t p h => ?_) (.fail _ rfl)
  split at h <;> cases h
  case h_8 => exact plan.expression.bind fun _ => .bind (.expect _ _ rfl) fun _ => .pure _
  case h_9 => exact (routinePlan plan _).map _
  all_goals exact .pure _

/-- The plan of calls and properties. -/
def callPlan : Plan (call inner) := by
  refine (primaryPlan plan).bind fun callee => .extend (fun e t p h => ?_) callee
  unfold afterCallee at h
  split at h <;> cases h
  · exact .bind ((plan.expression.commaSeparated _ rfl).unlessNext _ _) fun _ =>
      .bind (.expect _ _ rfl) fun _ => .pure _
  · exact .map (.expect _ _ rfl) _

/-- The plan of an operand with operators before it. -/
def operandPlan : Plan (operand inner) := by
  refine .select (fun t p h => ?_) (callPlan plan)
  split at h <;> cases h <;> exact plan.operand.map _

/-- The plan of the operators between operands, on all levels. -/
def disjunctionPlan : Plan (disjunction inner) :=
  .chain (.chain (.chain (.chain (.chain (.chain (operandPlan plan) _ _) _ _) _ _) _ _) _ _) _ _

/-- The plan of an expression. -/
def expressionPlan : Plan (expression inner) := by
  refine (disjunctionPlan plan).bind fun target => .select (fun t p h => ?_) (.pure _)
  split at h
  · next ht =>
    cases h
    refine plan.expression.bind fun value => ?_
    unfold assignTo
    split
    · exact .pure _
    · exact .pure _
    · exact .failAt t ht
  · cases h

/-- The plan of a clause. -/
def clausePlan (closing : Symbol) : Plan (clause inner closing) :=
  ((expressionPlan plan).map _).unlessNext _ _

/-- The plan of a variable declaration. -/
def varDeclarationPlan : Plan (varDeclaration inner) := by
  refine .bind (.expect _ _ rfl) fun _ => .bind (.select (fun t p h => ?_) (.pure _)) fun _ =>
    .bind (.expect _ _ rfl) fun _ => .pure _
  split at h
  · cases h
    exact (expressionPlan plan).map _
  · cases h

/-- The plan of an expression statement. -/
def expressionStatementPlan : Plan (expressionStatement inner) :=
  (expressionPlan plan).bind fun _ => .bind (.expect _ _ rfl) fun _ => .pure _

/-- The plan of what stands after an `else`. -/
def elseBranchPlan : Plan (elseBranch inner) := by
  refine .select (fun t p h => ?_) (.pure _)
  split at h
  · cases h
    exact plan.statement.map _
  · cases h

/-- The plan of what stands before the condition of a `for` loop. -/
def loopStartPlan : Plan (loopStart inner) := by
  refine .select (fun t p h => ?_) ((expressionStatementPlan plan).map _)
  split at h <;> cases h
  · exact .pure _
  · exact (varDeclarationPlan plan).map _

/-- The plan of a conditional. -/
def ifPlan : Plan (ifStatement inner) :=
  .bind (.expect _ _ rfl) fun _ => (expressionPlan plan).bind fun _ =>
    .bind (.expect _ _ rfl) fun _ => plan.statement.bind fun _ =>
    (elseBranchPlan plan).bind fun _ => .pure _

/-- The plan of a `while` loop. -/
def whilePlan : Plan (whileStatement inner) :=
  .bind (.expect _ _ rfl) fun _ => (expressionPlan plan).bind fun _ =>
    .bind (.expect _ _ rfl) fun _ => plan.statement.bind fun _ => .pure _

/-- The plan of a `for` loop. -/
def forPlan : Plan (forStatement inner) :=
  .bind (.expect _ _ rfl) fun _ => (loopStartPlan plan).bind fun _ =>
    (clausePlan plan _).bind fun _ => .bind (.expect _ _ rfl) fun _ =>
    (clausePlan plan _).bind fun _ => .bind (.expect _ _ rfl) fun _ =>
    plan.statement.bind fun _ => .pure _

/-- The plan of a statement. -/
def statementPlan : Plan (statement inner) := by
  refine .select (fun t p h => ?_) (expressionStatementPlan plan)
  split at h <;> cases h
  · exact (expressionPlan plan).bind fun _ => .bind (.expect _ _ rfl) fun _ => .pure _
  · exact plan.block.map _
  · exact ifPlan plan
  · exact whilePlan plan
  · exact forPlan plan
  · exact (clausePlan plan _).bind fun _ => .bind (.expect _ _ rfl) fun _ => .pure _

/-- The plan of a routine with a name. -/
def namedRoutinePlan {missingName : SyntaxFault} (h : missingName.isLimit = false) :
    Plan (namedRoutine inner missingName) :=
  .bind (.expect _ _ h) fun _ => (routinePlan plan _).bind fun _ => .pure _

/-- The plan of a class. -/
def classPlan : Plan (classDeclaration inner) :=
  .bind (.expect _ _ rfl) fun _ => .bind (.expect _ _ rfl) fun _ =>
    .bind (.repeatUntil _ _ (namedRoutinePlan plan rfl)) fun _ =>
    .bind (.expect _ _ rfl) fun _ => .pure _

/-- The plan of a declaration. -/
def strictDeclarationPlan : Plan (strictDeclaration inner) := by
  refine .lookForFunction (f := declarationIf inner) fun named =>
    .select (fun t p h => ?_) (statementPlan plan)
  split at h
  · cases h
    exact classPlan plan
  · split at h
    · cases h
      exact (namedRoutinePlan plan rfl).map _
    · cases h
  · cases h
    exact varDeclarationPlan plan
  · cases h

/-- The plan of declarations. -/
def declarationsPlan (stop : Token → Bool) : Plan (declarations inner stop) :=
  .map (.repeatUntil _ _ (.recovered (strictDeclarationPlan plan))) _

/-- The plan of a block. -/
def blockPlan : Plan (block inner) :=
  (declarationsPlan plan _).bind fun _ => .bind (.expect _ _ rfl) fun _ => .pure _

end

/-- The plans of the parsers of any depth. -/
def Level.planOfDepth : (depth : Nat) → (Level.ofDepth depth).Plan
  | 0 => ⟨.tooDeep, .tooDeep, .tooDeep, .tooDeep⟩
  | depth + 1 =>
    let inner := planOfDepth depth
    ⟨expressionPlan inner, operandPlan inner, statementPlan inner, blockPlan inner⟩

end Grammar

end Treewalk
