import Treewalk.Diagnostic
import Treewalk.Tree

/-!
# Scopes

A scope holds the names declared so far in one block, routine or class, and whether each has its value
yet. `Scoping` is what resolving knows at a place of a program: the scopes around it, the innermost
first, and what kind of routine and whether a class encloses it. The outermost code of a program is in
no scope; its names are global.

`Scoping.address` says where a name is found from there: in the innermost scope that holds it, counted
by the scopes in between, and globally if no scope does.
-/

namespace Treewalk

/-- Where a name is found: among the global names, or in the scope so many scopes further out. -/
inductive Address where
  | global
  | scope (distance : Nat)
deriving DecidableEq, Repr

/-- The names of a scope, each with whether it has its value yet. -/
abbrev Scope := List (String × Bool)

namespace Scope

/-- Whether a scope holds a name. -/
def holds (s : Scope) (name : String) : Bool := s.any (·.1 == name)

/-- A scope with a name added, or with the state of a name changed. -/
def put (s : Scope) (name : String) (ready : Bool) : Scope :=
  (name, ready) :: s.filter (·.1 != name)

/-- Whether a scope holds a name that has no value yet. -/
def unready (s : Scope) (name : String) : Bool := s.contains (name, false)

end Scope

/-- The routines that a return statement can be in. -/
inductive RoutineKind where
  | function
  | method
  | initializer
deriving DecidableEq, Repr

/-- What a program does with names that it must not do. -/
inductive Misuse where
  | redeclaration
  | ownInitializer
  | returnOutside
  | initializerValue
  | thisOutside
deriving DecidableEq, Repr

/-- The message for a misuse of names. -/
def Misuse.message : Misuse → String
  | redeclaration => "already a variable with this name in this scope"
  | ownInitializer => "can't read local variable in its own initializer"
  | returnOutside => "can't return from top-level code"
  | initializerValue => "can't return a value from an initializer"
  | thisOutside => "can't use 'this' outside of a class"

/-- What resolving finds: a misuse, by the word that it is reported at, or the first node of a path
that is nested too deeply. -/
inductive Finding where
  | misuse (place : Name) (what : Misuse)
  | tooDeep
deriving DecidableEq, Repr

/-- What is known at a place of a program. -/
structure Scoping where
  scopes : List Scope
  routine : Option RoutineKind
  inClass : Bool
  /-- How many nodes are around the place. -/
  depth : Nat
  /-- How many nodes may be around one. -/
  maxDepth : Nat
deriving DecidableEq

namespace Scoping

/-- The outermost code of a program. -/
def outermost (maxDepth : Nat) : Scoping := ⟨[], none, false, 0, maxDepth⟩

/-- The place of the parts of a node. -/
def inside (c : Scoping) : Scoping := { c with depth := c.depth + 1 }

/-- A place with one more scope around it. -/
def push (c : Scoping) (s : Scope) : Scoping := { c with scopes := s :: c.scopes }

/-- A place after the state of a name is set in the innermost scope. Global names are not kept. -/
def put (c : Scoping) (name : String) (ready : Bool) : Scoping :=
  match c.scopes with
  | [] => c
  | s :: ss => { c with scopes := s.put name ready :: ss }

/-- A place where a name is declared and has no value yet. -/
def declare (c : Scoping) (name : Name) : Scoping := c.put name.text false

/-- A place where a name is declared and has its value. -/
def define (c : Scoping) (name : Name) : Scoping := c.put name.text true

/-- The place in the body of a routine, where the parameters are in the scope of the body. -/
def inRoutine (c : Scoping) (kind : RoutineKind) (parameters : List Name) : Scoping :=
  parameters.foldl define ({ c with routine := some kind }.push [])

/-- The place of the methods of a class. -/
def inClassBody (c : Scoping) : Scoping := { c with inClass := true }.push [(thisName, true)]

/-- The place after a statement: a declaration adds its name. -/
def after {ρ : Type} (c : Scoping) : Stmt ρ → Scoping
  | .var name _ | .function name _ | .class name _ => c.define name
  | _ => c

/-- Where a name is found in scopes, the innermost first, of which the first is `distance` scopes
out. -/
def addressFrom (distance : Nat) (name : String) : List Scope → Address
  | [] => .global
  | s :: ss => if s.holds name then .scope distance else addressFrom (distance + 1) name ss

/-- Where a name is found. -/
def address (c : Scoping) (name : String) : Address := addressFrom 0 name c.scopes

/-! ## Findings -/

/-- A declaration of a name that the innermost scope holds already. -/
def redeclarations (c : Scoping) (name : Name) : List Finding :=
  match c.scopes with
  | s :: _ => if s.holds name.text then [.misuse name .redeclaration] else []
  | [] => []

/-- A parameter with the name of an earlier one. -/
def parameterRedeclarations (c : Scoping) : List Name → List Finding
  | [] => []
  | p :: ps => c.redeclarations p ++ (c.define p).parameterRedeclarations ps

/-- A read of a name of the innermost scope that has no value yet. -/
def ownInitializers (c : Scoping) (name : Name) : List Finding :=
  match c.scopes with
  | s :: _ => if s.unready name.text then [.misuse name .ownInitializer] else []
  | [] => []

/-- A return outside of every routine, or with a value from an initializer. -/
def returnMisuses (c : Scoping) (line : Int) (hasValue : Bool) : List Finding :=
  match c.routine with
  | none => [.misuse ⟨Keyword.return_.spelling, line⟩ .returnOutside]
  | some .initializer =>
    if hasValue then [.misuse ⟨Keyword.return_.spelling, line⟩ .initializerValue] else []
  | some _ => []

/-- A node that is the first too deep one of its path. -/
def depthFindings (c : Scoping) : List Finding := if c.depth = c.maxDepth then [.tooDeep] else []

end Scoping

end Treewalk
