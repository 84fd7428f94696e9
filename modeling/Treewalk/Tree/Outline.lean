import Treewalk.Tree

/-!
# Outlines of trees

The outline of a tree writes every node as a parenthesised list, its head first, except names and
literals, which stand for themselves. Parts of a node that are missing leave nothing behind.
-/

namespace Treewalk

variable {ρ : Type}

/-- A node of an outline. -/
def parenthesized (head : String) (parts : List String) : String :=
  "(" ++ " ".intercalate (head :: parts) ++ ")"

/-- A literal in an outline: a string is quoted, all else is as it is printed. -/
def Literal.outline : Literal → String
  | nil => "nil"
  | boolean true => "true"
  | boolean false => "false"
  | number x => Number.display x
  | string s => Text.quoted s

/-- The parameters of a routine in an outline. -/
def parameterOutline (parameters : List Name) : String :=
  "(" ++ " ".intercalate (parameters.map Name.text) ++ ")"

mutual

/-- The outline of an expression. -/
def Expr.outline : Expr ρ → String
  | .literal value => value.outline
  | .grouping inner => parenthesized "group" [inner.outline]
  | .unary op _ operand => parenthesized op.spelling [operand.outline]
  | .binary op _ left right => parenthesized op.spelling [left.outline, right.outline]
  | .logical op left right => parenthesized op.spelling [left.outline, right.outline]
  | .variable name _ => name.text
  | .assign name _ value => parenthesized "=" [name.text, value.outline]
  | .call callee _ arguments => parenthesized "call" (callee.outline :: Expr.outlines arguments)
  | .get object property => parenthesized "." [object.outline, property.text]
  | .set object property value =>
    parenthesized ".=" [object.outline, property.text, value.outline]
  | .this _ _ => thisName
  | .lambda routine => routine.outline "fn"

/-- The outlines of expressions. -/
def Expr.outlines : List (Expr ρ) → List String
  | [] => []
  | e :: es => e.outline :: Expr.outlines es

/-- The outline of an expression that may be missing. -/
def Expr.optionOutline : Option (Expr ρ) → List String
  | none => []
  | some e => [e.outline]

/-- The outline of a statement. -/
def Stmt.outline : Stmt ρ → String
  | .expression value => parenthesized ";" [value.outline]
  | .print value => parenthesized "print" [value.outline]
  | .var name initializer => parenthesized "var" (name.text :: Expr.optionOutline initializer)
  | .block body => parenthesized "block" (Stmt.outlines body)
  | .branch condition onTrue onFalse =>
    parenthesized "if" (condition.outline :: onTrue.outline :: Stmt.optionOutline onFalse)
  | .while condition body => parenthesized "while" [condition.outline, body.outline]
  | .function name routine => routine.outline ("fn " ++ name.text)
  | .return _ value => parenthesized "return" (Expr.optionOutline value)
  | .class name methods => parenthesized ("class " ++ name.text) (Routine.outlines methods)

/-- The outlines of statements. -/
def Stmt.outlines : List (Stmt ρ) → List String
  | [] => []
  | s :: ss => s.outline :: Stmt.outlines ss

/-- The outline of a statement that may be missing. -/
def Stmt.optionOutline : Option (Stmt ρ) → List String
  | none => []
  | some s => [s.outline]

/-- The outline of a routine with the given head. -/
def Routine.outline (head : String) : Routine ρ → String
  | .mk parameters body =>
    parenthesized head (parameterOutline parameters :: Stmt.outlines body)

/-- The outlines of methods. -/
def Routine.outlines : List (Name × Routine ρ) → List String
  | [] => []
  | (name, routine) :: methods => routine.outline ("fn " ++ name.text) :: Routine.outlines methods

end

/-- The outline of a program, a line for each statement. -/
def programOutline (program : List (Stmt ρ)) : String :=
  "\n".intercalate (Stmt.outlines program)

end Treewalk
