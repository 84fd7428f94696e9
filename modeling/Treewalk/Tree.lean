import Treewalk.Token

/-!
# Syntax trees

Expressions, statements, and the routines that both of them hold: functions, methods and anonymous
functions share one shape. A tree carries a mark of type `ρ` at every use of a name. The parser builds
trees with the mark `Unit`; resolving replaces it by where the name is found.

There is no node for a `for` loop: it is built from a block and a `while` loop (`Stmt.forLoop`).
-/

namespace Treewalk

/-- A name and the line it is written on. -/
structure Name where
  text : String
  line : Int
deriving DecidableEq, Repr

/-- The values that a program can write down. -/
inductive Literal where
  | nil
  | boolean (b : Bool)
  | number (x : Float)
  | string (s : String)
deriving DecidableEq

/-- The operators of one operand. -/
inductive UnaryOp where
  | negate
  | not
deriving DecidableEq, Repr

/-- The operators of two operands that evaluate both. -/
inductive BinaryOp where
  | equal | notEqual | greater | greaterEqual | less | lessEqual
  | add | subtract | multiply | divide
deriving DecidableEq, Repr

/-- The operators of two operands that may leave the second unevaluated. -/
inductive LogicalOp where
  | and
  | or
deriving DecidableEq, Repr

/-- The text of an operator. -/
def UnaryOp.spelling : UnaryOp → String
  | negate => "-"
  | not => "!"

/-- The text of an operator. -/
def BinaryOp.spelling : BinaryOp → String
  | equal => "=="
  | notEqual => "!="
  | greater => ">"
  | greaterEqual => ">="
  | less => "<"
  | lessEqual => "<="
  | add => "+"
  | subtract => "-"
  | multiply => "*"
  | divide => "/"

/-- The text of an operator. -/
def LogicalOp.spelling : LogicalOp → String
  | and => "and"
  | or => "or"

mutual

/-- An expression. An operator and a call keep the line on which a fault of theirs is reported: that
of the operator, and that of the closing parenthesis. -/
inductive Expr (ρ : Type) : Type where
  | literal (value : Literal)
  | grouping (inner : Expr ρ)
  | unary (op : UnaryOp) (line : Int) (operand : Expr ρ)
  | binary (op : BinaryOp) (line : Int) (left right : Expr ρ)
  | logical (op : LogicalOp) (left right : Expr ρ)
  | variable (name : Name) (mark : ρ)
  | assign (name : Name) (mark : ρ) (value : Expr ρ)
  | call (callee : Expr ρ) (line : Int) (arguments : List (Expr ρ))
  | get (object : Expr ρ) (property : Name)
  | set (object : Expr ρ) (property : Name) (value : Expr ρ)
  | this (line : Int) (mark : ρ)
  | lambda (routine : Routine ρ)

/-- A statement. -/
inductive Stmt (ρ : Type) : Type where
  | expression (value : Expr ρ)
  | print (value : Expr ρ)
  | var (name : Name) (initializer : Option (Expr ρ))
  | block (body : List (Stmt ρ))
  | branch (condition : Expr ρ) (onTrue : Stmt ρ) (onFalse : Option (Stmt ρ))
  | while (condition : Expr ρ) (body : Stmt ρ)
  | function (name : Name) (routine : Routine ρ)
  | return (line : Int) (value : Option (Expr ρ))
  | class (name : Name) (methods : List (Name × Routine ρ))

/-- The parameters and the body of a function, a method or an anonymous function. -/
inductive Routine (ρ : Type) : Type where
  | mk (parameters : List Name) (body : List (Stmt ρ))

end

variable {ρ : Type}

/-- The parameters of a routine. -/
def Routine.parameters : Routine ρ → List Name
  | mk parameters _ => parameters

/-- The body of a routine. -/
def Routine.body : Routine ρ → List (Stmt ρ)
  | mk _ body => body

/-- The method that is called when an instance is made. -/
def initializerName : String := "init"

/-- The name by which a method finds its instance. -/
def thisName : String := "this"

/-- A loop with an initial statement, a condition and an expression to go on with, each of which may
be missing. The initial statement has a scope of its own around the loop, and the last expression is
evaluated after the body, outside of the body's scope. -/
def Stmt.forLoop (initial : Option (Stmt ρ)) (condition : Option (Expr ρ)) (next : Option (Expr ρ))
    (body : Stmt ρ) : Stmt ρ :=
  let body := match next with
    | some e => Stmt.block [body, .expression e]
    | none => body
  let loop := Stmt.while (condition.getD (.literal (.boolean true))) body
  match initial with
  | some s => .block [s, loop]
  | none => loop

end Treewalk
