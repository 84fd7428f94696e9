import Treewalk.Scope

/-!
# The table of local names

`usesOfProgram` lists the uses of names in a resolved program that are found in a scope, each with its
distance, in the order of the text. Uses of global names are left out. `sortedUses` puts them in the
order in which tables are shown.
-/

namespace Treewalk

/-- The ways to use a name, in alphabetical order. -/
inductive UseKind where
  | assign
  | this
  | variable
deriving DecidableEq, Repr

/-- The place of a way to use a name in the alphabetical order. -/
def UseKind.rank : UseKind → Nat
  | .assign => 0
  | .this => 1
  | .variable => 2

/-- One use of a local name. -/
structure Use where
  name : Name
  kind : UseKind
  distance : Nat
deriving DecidableEq, Repr

/-- The use that an address makes. -/
def Use.of (name : Name) (kind : UseKind) : Address → List Use
  | .global => []
  | .scope distance => [⟨name, kind, distance⟩]

mutual

/-- The uses of local names in an expression. -/
def Expr.uses : Expr Address → List Use
  | .literal _ => []
  | .grouping inner => inner.uses
  | .unary _ _ operand => operand.uses
  | .binary _ _ left right => left.uses ++ right.uses
  | .logical _ left right => left.uses ++ right.uses
  | .variable name address => Use.of name .variable address
  | .assign name address value => Use.of name .assign address ++ value.uses
  | .call callee _ arguments => callee.uses ++ Expr.usesList arguments
  | .get object _ => object.uses
  | .set object _ value => object.uses ++ value.uses
  | .this line address => Use.of ⟨thisName, line⟩ .this address
  | .lambda routine => routine.uses

/-- The uses of local names in expressions. -/
def Expr.usesList : List (Expr Address) → List Use
  | [] => []
  | e :: es => e.uses ++ Expr.usesList es

/-- The uses of local names in an expression that may be missing. -/
def Expr.usesOption : Option (Expr Address) → List Use
  | none => []
  | some e => e.uses

/-- The uses of local names in a statement. -/
def Stmt.uses : Stmt Address → List Use
  | .expression value => value.uses
  | .print value => value.uses
  | .var _ initializer => Expr.usesOption initializer
  | .block body => Stmt.usesList body
  | .branch condition onTrue onFalse =>
    condition.uses ++ onTrue.uses ++ Stmt.usesOption onFalse
  | .while condition body => condition.uses ++ body.uses
  | .function _ routine => routine.uses
  | .return _ value => Expr.usesOption value
  | .class _ methods => Routine.usesMethods methods

/-- The uses of local names in statements. -/
def Stmt.usesList : List (Stmt Address) → List Use
  | [] => []
  | s :: ss => s.uses ++ Stmt.usesList ss

/-- The uses of local names in a statement that may be missing. -/
def Stmt.usesOption : Option (Stmt Address) → List Use
  | none => []
  | some s => s.uses

/-- The uses of local names in a routine. -/
def Routine.uses : Routine Address → List Use
  | .mk _ body => Stmt.usesList body

/-- The uses of local names in methods. -/
def Routine.usesMethods : List (Name × Routine Address) → List Use
  | [] => []
  | (_, routine) :: methods => routine.uses ++ Routine.usesMethods methods

end

/-- Whether a use comes no later than another in a table: tables are ordered by line, then by name,
then by the way of use, then by distance. -/
def Use.le (a b : Use) : Bool :=
  if a.name.line ≠ b.name.line then a.name.line < b.name.line
  else if a.name.text ≠ b.name.text then a.name.text < b.name.text
  else if a.kind ≠ b.kind then a.kind.rank < b.kind.rank
  else a.distance ≤ b.distance

/-- The table of local names of a resolved program. -/
def sortedUses (program : List (Stmt Address)) : List Use :=
  (Stmt.usesList program).mergeSort Use.le

end Treewalk
