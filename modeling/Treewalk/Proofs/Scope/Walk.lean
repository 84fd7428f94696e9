import Treewalk.Proofs.Diagnostic.Log
import Treewalk.Proofs.Scope.Path

/-!
# Resolving with a state

Resolving hands what is known at a place down to the parts of a node. A resolver keeps it in its state
instead: a stack of scopes, the routine and the class that it is in. A block, a routine or a class pushes
a scope and pops it again, and a routine or a class sets what the resolver is in and puts the old value
back. The distances are not marked in the program but written into a table, at the keys by which the uses
of names are told apart (`Resolver.locals`).

`Node.walk` is the walk of a resolver over a node, in any state, and `Resolver.resolve` resolves a program
from the beginning. How deeply the nodes are nested does not matter here: a walk that comes to its end is
the same for every bound.
-/

namespace Treewalk

/-- The state of a resolver. -/
structure Resolver (κ : Type) where
  /-- The scopes that are open, the innermost first. -/
  scopes : List Scope
  /-- The table of local names. -/
  locals : κ → Option Nat
  routine : Option RoutineKind
  inClass : Bool
  /-- What was reported so far. -/
  misuses : List (Name × Misuse)

namespace Resolver

variable {κ : Type}

/-- Reports a misuse. -/
def report (place : Name) (what : Misuse) (r : Resolver κ) : Resolver κ :=
  { r with misuses := r.misuses ++ [(place, what)] }

/-- Opens a scope for a walk and closes it again. -/
def inScope (walk : Resolver κ → Resolver κ) (r : Resolver κ) : Resolver κ :=
  let r := walk { r with scopes := [] :: r.scopes }
  { r with scopes := r.scopes.tail }

/-- Sets the kind of the routine for a walk and puts the old one back. -/
def inRoutine (kind : RoutineKind) (walk : Resolver κ → Resolver κ) (r : Resolver κ) : Resolver κ :=
  { walk { r with routine := some kind } with routine := r.routine }

/-- Sets that the walk is in a class and puts back what was set before. -/
def inClassBody (walk : Resolver κ → Resolver κ) (r : Resolver κ) : Resolver κ :=
  { walk { r with inClass := true } with inClass := r.inClass }

/-- Sets the state of a name in the innermost scope. Global names are not kept. -/
def put (name : String) (ready : Bool) (r : Resolver κ) : Resolver κ :=
  match r.scopes with
  | [] => r
  | σ :: σs => { r with scopes := σ.put name ready :: σs }

/-- Declares a name in the innermost scope, which must not hold it yet. It has no value yet. -/
def declare (name : Name) (r : Resolver κ) : Resolver κ :=
  (if r.scopes.head?.any (·.holds name.text) then r.report name .redeclaration else r).put name.text false

/-- Gives a name of the innermost scope its value. -/
def define (name : Name) (r : Resolver κ) : Resolver κ := r.put name.text true

/-- Checks that a name that is read is not that of a variable in its own initializer. -/
def checkRead (name : Name) (r : Resolver κ) : Resolver κ :=
  if r.scopes.head?.any (·.unready name.text) then r.report name .ownInitializer else r

/-- Checks that a return statement stands in a routine, and returns no value from an initializer. -/
def checkReturn (line : Int) (hasValue : Bool) (r : Resolver κ) : Resolver κ :=
  if r.routine = none then r.report ⟨Keyword.return_.spelling, line⟩ .returnOutside
  else if r.routine = some .initializer ∧ hasValue then
    r.report ⟨Keyword.return_.spelling, line⟩ .initializerValue
  else r

/-- Writes the distance of a name into the table, if an open scope holds the name. -/
def write [DecidableEq κ] (key : κ) (name : String) (r : Resolver κ) : Resolver κ :=
  match Scoping.addressFrom 0 name r.scopes with
  | .global => r
  | .scope distance => { r with locals := fun k => if k = key then some distance else r.locals k }

end Resolver

open Resolver

variable {κ : Type} [DecidableEq κ]

mutual

/-- The walk over an expression. -/
def Expr.walk : Expr κ → Resolver κ → Resolver κ
  | .literal _, r => r
  | .grouping x, r | .unary _ _ x, r | .get x _, r => x.walk r
  | .binary _ _ x y, r | .logical _ x y, r => y.walk (x.walk r)
  | .variable name key, r => (r.checkRead name).write key name.text
  | .assign name key x, r => (x.walk r).write key name.text
  | .call x _ xs, r => Expr.walkList xs (x.walk r)
  | .set y _ x, r => y.walk (x.walk r)
  | .this line key, r =>
    if r.inClass then r.write key thisName else r.report ⟨thisName, line⟩ .thisOutside
  | .lambda f, r => f.walk .function r

/-- The walk over arguments, one after the other. -/
def Expr.walkList : List (Expr κ) → Resolver κ → Resolver κ
  | [], r => r
  | x :: xs, r => Expr.walkList xs (x.walk r)

/-- The walk over an expression that may be missing. -/
def Expr.walkOption : Option (Expr κ) → Resolver κ → Resolver κ
  | none, r => r
  | some x, r => x.walk r

/-- The walk over a statement. -/
def Stmt.walk : Stmt κ → Resolver κ → Resolver κ
  | .expression x, r | .print x, r => x.walk r
  | .var name x, r => (Expr.walkOption x (r.declare name)).define name
  | .block ss, r => inScope (Stmt.walkList ss) r
  | .branch x s s', r => Stmt.walkOption s' (s.walk (x.walk r))
  | .while x s, r => s.walk (x.walk r)
  | .function name f, r => f.walk .function ((r.declare name).define name)
  | .return line x, r => Expr.walkOption x (r.checkReturn line x.isSome)
  | .class name ms, r =>
    inClassBody (fun r => inScope (fun r => Routine.walkMethods ms (r.put thisName true))
      ((r.declare name).define name)) r

/-- The walk over the statements of a body, one after the other. -/
def Stmt.walkList : List (Stmt κ) → Resolver κ → Resolver κ
  | [], r => r
  | s :: ss, r => Stmt.walkList ss (s.walk r)

/-- The walk over a statement that may be missing. -/
def Stmt.walkOption : Option (Stmt κ) → Resolver κ → Resolver κ
  | none, r => r
  | some s, r => s.walk r

/-- The walk over a routine: its parameters and its body, in a scope of their own. -/
def Routine.walk (kind : RoutineKind) : Routine κ → Resolver κ → Resolver κ
  | .mk parameters body, r =>
    inRoutine kind (inScope fun r =>
      Stmt.walkList body (parameters.foldl (fun r p => (r.declare p).define p) r)) r

/-- The walk over methods, one after the other. -/
def Routine.walkMethods : List (Name × Routine κ) → Resolver κ → Resolver κ
  | [], r => r
  | (name, f) :: ms, r => Routine.walkMethods ms (f.walk (methodKind name) r)

end

/-- The walk of a resolver over a part of a program. -/
def Node.walk : Node κ → Resolver κ → Resolver κ
  | expression x => x.walk
  | arguments xs => Expr.walkList xs
  | statement s => s.walk
  | body ss => Stmt.walkList ss
  | routine kind f => f.walk kind
  | methods ms => Routine.walkMethods ms

/-- Resolves a program: without scopes and with an empty table. -/
def Resolver.resolve (program : List (Stmt κ)) (r : Resolver κ) : Resolver κ :=
  Stmt.walkList program { r with scopes := [], locals := fun _ => none }

end Treewalk
