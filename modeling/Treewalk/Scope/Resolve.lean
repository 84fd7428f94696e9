import Treewalk.Scope

/-!
# Resolving

Resolving walks a program once, in the order of its text, and marks every use of a name with the
address at which it is found there. A declaration counts from its own place on: a variable from its
initializer on, in which it has no value yet, a function and a class from their own bodies on.

The walk goes on after every finding, and a finding changes nothing of what follows.
-/

namespace Treewalk

/-- A resolved part of a program and what was found on the way, in the order of the walk. -/
structure Resolved (α : Type) where
  value : α
  findings : List Finding

namespace Resolved

variable {α β : Type}

/-- Something in which there are no names, and so nothing is found. -/
protected def pure (a : α) : Resolved α := ⟨a, []⟩

/-- The findings of what is resolved first come first. -/
protected def bind (r : Resolved α) (f : α → Resolved β) : Resolved β :=
  ⟨(f r.value).value, r.findings ++ (f r.value).findings⟩

/-- What is resolved is put together from its parts in the order in which they are resolved. -/
instance : Monad Resolved where
  pure := Resolved.pure
  bind := Resolved.bind

/-- Adds findings. -/
def note (findings : List Finding) : Resolved Unit := ⟨(), findings⟩

/-- Nothing is done to what is resolved without findings. -/
@[simp] theorem value_pure (a : α) : (pure a : Resolved α).value = a := rfl

/-- Nothing is found where there are no names. -/
@[simp] theorem findings_pure (a : α) : (pure a : Resolved α).findings = [] := rfl

/-- What is resolved in two steps is the result of the second. -/
@[simp] theorem value_bind (r : Resolved α) (f : α → Resolved β) :
    (r >>= f).value = (f r.value).value := rfl

/-- The findings of two steps are those of the first and then those of the second. -/
@[simp] theorem findings_bind (r : Resolved α) (f : α → Resolved β) :
    (r >>= f).findings = r.findings ++ (f r.value).findings := rfl

/-- What is noted is found. -/
@[simp] theorem findings_note (findings : List Finding) : (note findings).findings = findings := rfl

end Resolved

open Resolved (note)

/-- The kind of a method: the one of a given name makes instances. -/
def methodKind (name : Name) : RoutineKind :=
  if name.text = initializerName then .initializer else .method

mutual

/-- Marks the names of an expression. -/
def Expr.resolve (c : Scoping) : Expr Unit → Resolved (Expr Address)
  | .literal value => do
    note c.depthFindings
    return .literal value
  | .grouping inner => do
    note c.depthFindings
    return .grouping (← inner.resolve c.inside)
  | .unary op line operand => do
    note c.depthFindings
    return .unary op line (← operand.resolve c.inside)
  | .binary op line left right => do
    note c.depthFindings
    let left ← left.resolve c.inside
    return .binary op line left (← right.resolve c.inside)
  | .logical op left right => do
    note c.depthFindings
    let left ← left.resolve c.inside
    return .logical op left (← right.resolve c.inside)
  | .variable name _ => do
    note c.depthFindings
    note (c.ownInitializers name)
    return .variable name (c.address name.text)
  | .assign name _ value => do
    note c.depthFindings
    let value ← value.resolve c.inside
    return .assign name (c.address name.text) value
  | .call callee line arguments => do
    note c.depthFindings
    let callee ← callee.resolve c.inside
    return .call callee line (← Expr.resolveList c.inside arguments)
  | .get object property => do
    note c.depthFindings
    return .get (← object.resolve c.inside) property
  | .set object property value => do
    note c.depthFindings
    -- The value comes first here, although it is evaluated last.
    let value ← value.resolve c.inside
    return .set (← object.resolve c.inside) property value
  | .this line _ => do
    note c.depthFindings
    if c.inClass then
      return .this line (c.address thisName)
    else
      note [.misuse ⟨thisName, line⟩ .thisOutside]
      return .this line .global
  | .lambda routine => do
    note c.depthFindings
    return .lambda (← routine.resolve c.inside .function)

/-- Marks the names of expressions one after another. -/
def Expr.resolveList (c : Scoping) : List (Expr Unit) → Resolved (List (Expr Address))
  | [] => return []
  | e :: es => do
    let e ← e.resolve c
    return e :: (← Expr.resolveList c es)

/-- Marks the names of an expression that may be missing. -/
def Expr.resolveOption (c : Scoping) : Option (Expr Unit) → Resolved (Option (Expr Address))
  | none => return none
  | some e => return some (← e.resolve c)

/-- Marks the names of a statement. -/
def Stmt.resolve (c : Scoping) : Stmt Unit → Resolved (Stmt Address)
  | .expression value => do
    note c.depthFindings
    return .expression (← value.resolve c.inside)
  | .print value => do
    note c.depthFindings
    return .print (← value.resolve c.inside)
  | .var name initializer => do
    note c.depthFindings
    note (c.redeclarations name)
    -- The initializer finds the name, which has no value yet.
    return .var name (← Expr.resolveOption (c.declare name).inside initializer)
  | .block body => do
    note c.depthFindings
    return .block (← Stmt.resolveList (c.inside.push []) body)
  | .branch condition onTrue onFalse => do
    note c.depthFindings
    let condition ← condition.resolve c.inside
    let onTrue ← onTrue.resolve c.inside
    return .branch condition onTrue (← Stmt.resolveOption c.inside onFalse)
  | .while condition body => do
    note c.depthFindings
    let condition ← condition.resolve c.inside
    return .while condition (← body.resolve c.inside)
  | .function name routine => do
    note c.depthFindings
    note (c.redeclarations name)
    -- A function may call itself.
    return .function name (← routine.resolve (c.define name).inside .function)
  | .return line value => do
    note c.depthFindings
    note (c.returnMisuses line value.isSome)
    return .return line (← Expr.resolveOption c.inside value)
  | .class name methods => do
    note c.depthFindings
    note (c.redeclarations name)
    return .class name (← Routine.resolveMethods (c.define name).inside.inClassBody methods)

/-- Marks the names of statements one after another, each of which sees the declarations before it. -/
def Stmt.resolveList (c : Scoping) : List (Stmt Unit) → Resolved (List (Stmt Address))
  | [] => return []
  | s :: ss => do
    let s' ← s.resolve c
    return s' :: (← Stmt.resolveList (c.after s) ss)

/-- Marks the names of a statement that may be missing. -/
def Stmt.resolveOption (c : Scoping) : Option (Stmt Unit) → Resolved (Option (Stmt Address))
  | none => return none
  | some s => return some (← s.resolve c)

/-- Marks the names of a routine of the given kind. -/
def Routine.resolve (c : Scoping) (kind : RoutineKind) :
    Routine Unit → Resolved (Routine Address)
  | .mk parameters body => do
    note ((c.push []).parameterRedeclarations parameters)
    return .mk parameters (← Stmt.resolveList (c.inRoutine kind parameters) body)

/-- Marks the names of methods. -/
def Routine.resolveMethods (c : Scoping) :
    List (Name × Routine Unit) → Resolved (List (Name × Routine Address))
  | [] => return []
  | (name, routine) :: methods => do
    let routine ← routine.resolve c (methodKind name)
    return (name, routine) :: (← Routine.resolveMethods c methods)

end

/-- Marks the names of a program. -/
def resolveProgram (maxDepth : Nat) (program : List (Stmt Unit)) : Resolved (List (Stmt Address)) :=
  Stmt.resolveList (.outermost maxDepth) program

end Treewalk
