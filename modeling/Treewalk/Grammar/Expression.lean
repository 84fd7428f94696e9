import Treewalk.Grammar.Parser

/-!
# The grammar of expressions

From the loosest to the tightest: assignment, `or`, `and`, equality, comparison, sum, product, the
operators before an operand, calls and properties, and what stands alone. The operators between
operands associate to the left, assignment and the operators before an operand to the right.

Whatever an expression or a statement can hold inside itself is read by a `Level`, the parsers of one
level of nesting further in. So the recursion of the grammar is on the number of levels, and
`Level.ofDepth` ties the knot.
-/

namespace Treewalk.Grammar

open Treewalk.Parser

/-- The parsers for what stands one level further in. -/
structure Level where
  expression : Parser (Expr Unit)
  /-- An operand with the operators before it. -/
  operand : Parser (Expr Unit)
  statement : Parser (Stmt Unit)
  /-- Declarations up to a closing brace, which is taken too. -/
  block : Parser (List (Stmt Unit))

/-- The level at which nothing is read any more. -/
def Level.exhausted : Level := ⟨tooDeep, tooDeep, tooDeep, tooDeep⟩

variable (inner : Level)

/-- The parameters of a routine and its body. The given name stands in messages. -/
def routine (name : String) : Parser (Routine Unit) := do
  let _ ← symbol .leftParen (.parametersOpening name)
  let parameters ← unlessNext (.symbol .rightParen) []
    (commaSeparated (Parser.name .parameterName) .tooManyParameters)
  let _ ← symbol .rightParen .parametersClosing
  let _ ← symbol .leftBrace (.bodyOpening name)
  return .mk parameters (← inner.block)

/-- What stands alone: a literal, a name, a grouping or an anonymous function. -/
def primary : Parser (Expr Unit) :=
  select (fun t => match t.lexeme with
    | .keyword .false_ => some (pure (.literal (.boolean false)))
    | .keyword .true_ => some (pure (.literal (.boolean true)))
    | .keyword .nil => some (pure (.literal .nil))
    | .number _ value => some (pure (.literal (.number value)))
    | .string body => some (pure (.literal (.string (String.ofList (unescaped body)))))
    | .keyword .this => some (pure (.this t.line ()))
    | .identifier text => some (pure (.variable ⟨text, t.line⟩ ()))
    | .symbol .leftParen => some do
      let e ← inner.expression
      let _ ← symbol .rightParen .groupingClosing
      return .grouping e
    | .keyword .fn => some (Expr.lambda <$> routine inner "anonymous function")
    | _ => none) (fail .expression)

/-- The arguments of a call, up to the closing parenthesis. -/
def callArguments (callee : Expr Unit) : Parser (Expr Unit) := do
  let arguments ← unlessNext (.symbol .rightParen) []
    (commaSeparated inner.expression .tooManyArguments)
  let line ← symbol .rightParen .argumentsClosing
  return .call callee line arguments

/-- What goes on after something that stands alone: arguments or a property. -/
def afterCallee (e : Expr Unit) (t : Token) : Option (Parser (Expr Unit)) :=
  match t.lexeme with
  | .symbol .leftParen => some (callArguments inner e)
  | .symbol .dot => some (Expr.get e <$> Parser.name .propertyName)
  | _ => none

/-- Something that stands alone, with calls and properties after it. -/
def call : Parser (Expr Unit) := do
  let callee ← primary inner
  extend (afterCallee inner) callee

/-- An operand with the operators before it. -/
def operand : Parser (Expr Unit) :=
  select (fun t => match t.lexeme with
    | .symbol .bang => some (Expr.unary .not t.line <$> inner.operand)
    | .symbol .minus => some (Expr.unary .negate t.line <$> inner.operand)
    | _ => none) (call inner)

/-- The operators of a product. -/
def productOp? : Lexeme → Option BinaryOp
  | .symbol .slash => some .divide
  | .symbol .star => some .multiply
  | _ => none

/-- The operators of a sum. -/
def sumOp? : Lexeme → Option BinaryOp
  | .symbol .minus => some .subtract
  | .symbol .plus => some .add
  | _ => none

/-- The operators of a comparison. -/
def comparisonOp? : Lexeme → Option BinaryOp
  | .symbol .greater => some .greater
  | .symbol .greaterEqual => some .greaterEqual
  | .symbol .less => some .less
  | .symbol .lessEqual => some .lessEqual
  | _ => none

/-- The operators of an equality. -/
def equalityOp? : Lexeme → Option BinaryOp
  | .symbol .bangEqual => some .notEqual
  | .symbol .equalEqual => some .equal
  | _ => none

/-- A level of operators that evaluate both operands. -/
def binaryChain (operator : Lexeme → Option BinaryOp) (tighter : Parser (Expr Unit)) :
    Parser (Expr Unit) :=
  chain (fun t => operator t.lexeme) (fun op t => Expr.binary op t.line) tighter

/-- A level of one operator that may leave its second operand unevaluated. -/
def logicalChain (keyword : Keyword) (op : LogicalOp) (tighter : Parser (Expr Unit)) :
    Parser (Expr Unit) :=
  chain (fun t => if t.lexeme = .keyword keyword then some op else none)
    (fun op _ => Expr.logical op) tighter

/-- Operands with the operators of products between them. -/
def product : Parser (Expr Unit) := binaryChain productOp? (operand inner)

/-- Products with the operators of sums between them. -/
def sum : Parser (Expr Unit) := binaryChain sumOp? (product inner)

/-- Sums with the operators of comparisons between them. -/
def comparison : Parser (Expr Unit) := binaryChain comparisonOp? (sum inner)

/-- Comparisons with the operators of equalities between them. -/
def equality : Parser (Expr Unit) := binaryChain equalityOp? (comparison inner)

/-- Equalities with `and` between them. -/
def conjunction : Parser (Expr Unit) := logicalChain .and_ .and (equality inner)

/-- Conjunctions with `or` between them. -/
def disjunction : Parser (Expr Unit) := logicalChain .or_ .or (conjunction inner)

/-- The assignment of a value to a target: to a variable or to a property. -/
def assignTo (equals : Token) (target value : Expr Unit) : Parser (Expr Unit) :=
  match target with
  | .variable name mark => pure (.assign name mark value)
  | .get object property => pure (.set object property value)
  | _ => failAt equals .assignmentTarget

/-- An expression. What stands before an equals sign is looked at when the value has been read. -/
def expression : Parser (Expr Unit) := do
  let target ← disjunction inner
  select (fun t =>
    if t.lexeme = .symbol .equal then some (inner.expression >>= assignTo t target) else none)
    (pure target)

end Treewalk.Grammar
