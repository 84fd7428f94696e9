import Treewalk.Token

/-!
# Syntax errors

What a text can lack of the grammar, and the message for each. A syntax error names the token it was
found at, and none at the end of the text.
-/

namespace Treewalk

/-- The greatest number of parameters of a routine and of arguments of a call. -/
def maxArguments : Nat := 255

/-- What is wrong where the grammar does not go on. Unless they say otherwise, the faults name what was
expected instead of the token found. -/
inductive SyntaxFault where
  | className
  | classBodyOpening
  | classBodyClosing
  | functionName
  | methodName
  | parametersOpening (routine : String)
  | parameterName
  | parametersClosing
  | bodyOpening (routine : String)
  | variableName
  | declarationEnd
  | printEnd
  | expressionEnd
  | returnEnd
  | loopConditionEnd
  | headOpening (keyword : Keyword)
  | ifConditionClosing
  | whileConditionClosing
  | forClausesClosing
  | blockClosing
  | argumentsClosing
  | groupingClosing
  | propertyName
  | expression
  /-- There are more parameters than a routine may have. -/
  | tooManyParameters
  /-- There are more arguments than a call may have. -/
  | tooManyArguments
  /-- What stands before an equals sign cannot be assigned to. -/
  | assignmentTarget
deriving DecidableEq, Repr

/-- The message of a fault of the grammar. -/
def SyntaxFault.message : SyntaxFault → String
  | className => "expected class name"
  | classBodyOpening => "expected '\x7b' before class body"
  | classBodyClosing => "expected '\x7d' after class body"
  | functionName => "expected function name"
  | methodName => "expected method name"
  | parametersOpening routine => "expected '(' after " ++ routine
  | parameterName => "expected parameter name"
  | parametersClosing => "expected ')' after parameters"
  | bodyOpening routine => "expected '\x7b' before " ++ routine ++ "'s body"
  | variableName => "expected variable name"
  | declarationEnd => "expected ';' after variable declaration"
  | printEnd => "expected ';' after value"
  | expressionEnd => "expected ';' after expression"
  | returnEnd => "expected ';' after return value"
  | loopConditionEnd => "expected ';' after loop condition"
  | headOpening keyword => "expected '(' after '" ++ keyword.spelling ++ "'"
  | ifConditionClosing => "expected ')' after if condition"
  | whileConditionClosing => "expected ')' after while condition"
  | forClausesClosing => "expected ')' after for clauses"
  | blockClosing => "expected '\x7d' after block"
  | argumentsClosing => "expected ')' after arguments"
  | groupingClosing => "expected ')' after expression"
  | propertyName => "expected property name after '.'"
  | expression => "expected expression"
  | tooManyParameters => "can't have more than " ++ toString maxArguments ++ " parameters"
  | tooManyArguments => "can't have more than " ++ toString maxArguments ++ " arguments"
  | assignmentTarget => "invalid assignment target"

/-- A fault of the grammar and the token it was found at; without a token it was found at the end of
the text. -/
structure SyntaxError where
  place : Option Token
  fault : SyntaxFault
deriving DecidableEq

end Treewalk
