import Treewalk.Proofs.Scope.Bearing

/-!
# Programs that differ in their names

`Node.Alters` relates two parts of programs that are the same but for names, by a rule that says what
may become of a name where it is used and where it is declared. Two rules are of interest. By
`NameRule.anywhere` a name `n` may become `m` in any place. By `NameRule.inScope` it does so for one scope,
and only there: the variable or parameter `n` that is declared in the scope, and the uses whose addresses
lead to the scope. Then every use has the same address in both programs.
-/

namespace Treewalk

/-! ## Rules for names -/

/-- What may become of a name, by its bearing: of a use and its mark, of a variable or a parameter where
it is declared, and whether the name of a function or a class may be left as it is. -/
structure NameRule (ρ σ : Type) where
  use : Bearing → Name → ρ → Name → σ → Prop
  declare : Bearing → Name → Name → Prop
  keep : Bearing → Name → Prop

namespace NameRule

/-- Any name may be respelled. -/
def anywhere (n m : String) : NameRule Unit Unit where
  use _ x _ x' _ := ∃ changes, x' = x.respelled n m changes
  declare _ x x' := ∃ changes, x' = x.respelled n m changes
  keep _ _ := True

/-- A name of the scope is respelled, and what changes is what the scope makes known. The new name was
not there before. -/
def inScope (n m : String) : NameRule Address Address where
  use g x a x' a' := a' = a ∧ x' = x.respelled n m (g.meets a) ∧ (g.meets a = true → x.text ≠ m)
  declare g x x' := x' = x.respelled n m g.own ∧ (g.own = true → x.text ≠ m)
  keep g x := g.own = true → x.text ≠ n ∧ x.text ≠ m

/-- Away from the scope all names may be left as they are. -/
structure Idle {ρ : Type} (R : NameRule ρ ρ) : Prop where
  use : ∀ x a, R.use .apart x a x a
  declare : ∀ x, R.declare .apart x x
  keep : ∀ x, R.keep .apart x

/-- A rule about one scope says nothing away from it. -/
theorem idle_inScope (n m : String) : (inScope n m).Idle :=
  ⟨fun _ _ => ⟨rfl, Name.respelled_false.symm, fun h => Bool.noConfusion h⟩,
    fun _ => ⟨Name.respelled_false.symm, fun h => Bool.noConfusion h⟩, fun _ h => Bool.noConfusion h⟩

end NameRule

/-- Two parts of programs are the same but for their names, which follow a rule. -/
inductive Node.Alters {ρ σ : Type} (R : NameRule ρ σ) : Bearing → Node ρ → Node σ → Prop
  -- Expressions.
  | literal {g : Bearing} {v : Literal} :
    Alters R g (.expression (.literal v)) (.expression (.literal v))
  | grouping {g : Bearing} {x : Expr ρ} {x' : Expr σ}
    (h : Alters R (g.part 0) (.expression x) (.expression x')) :
    Alters R g (.expression (.grouping x)) (.expression (.grouping x'))
  | unary {g : Bearing} {op : UnaryOp} {line : Int} {x : Expr ρ} {x' : Expr σ}
    (h : Alters R (g.part 0) (.expression x) (.expression x')) :
    Alters R g (.expression (.unary op line x)) (.expression (.unary op line x'))
  | binary {g : Bearing} {op : BinaryOp} {line : Int} {x y : Expr ρ} {x' y' : Expr σ}
    (h : Alters R (g.part 0) (.expression x) (.expression x'))
    (hy : Alters R (g.part 1) (.expression y) (.expression y')) :
    Alters R g (.expression (.binary op line x y)) (.expression (.binary op line x' y'))
  | logical {g : Bearing} {op : LogicalOp} {x y : Expr ρ} {x' y' : Expr σ}
    (h : Alters R (g.part 0) (.expression x) (.expression x'))
    (hy : Alters R (g.part 1) (.expression y) (.expression y')) :
    Alters R g (.expression (.logical op x y)) (.expression (.logical op x' y'))
  | variable {g : Bearing} {name name' : Name} {a : ρ} {a' : σ} (h : R.use g name a name' a') :
    Alters R g (.expression (.variable name a)) (.expression (.variable name' a'))
  | assign {g : Bearing} {name name' : Name} {a : ρ} {a' : σ} {x : Expr ρ} {x' : Expr σ}
    (hname : R.use g name a name' a') (h : Alters R (g.part 0) (.expression x) (.expression x')) :
    Alters R g (.expression (.assign name a x)) (.expression (.assign name' a' x'))
  | call {g : Bearing} {x : Expr ρ} {x' : Expr σ} {line : Int} {xs : List (Expr ρ)}
    {xs' : List (Expr σ)} (h : Alters R (g.part 0) (.expression x) (.expression x'))
    (hxs : Alters R (g.part 1) (.arguments xs) (.arguments xs')) :
    Alters R g (.expression (.call x line xs)) (.expression (.call x' line xs'))
  | get {g : Bearing} {x : Expr ρ} {x' : Expr σ} {name : Name}
    (h : Alters R (g.part 0) (.expression x) (.expression x')) :
    Alters R g (.expression (.get x name)) (.expression (.get x' name))
  | set {g : Bearing} {x y : Expr ρ} {x' y' : Expr σ} {name : Name}
    (h : Alters R (g.part 0) (.expression x) (.expression x'))
    (hy : Alters R (g.part 1) (.expression y) (.expression y')) :
    Alters R g (.expression (.set y name x)) (.expression (.set y' name x'))
  | this {g : Bearing} {line : Int} {a : ρ} {a' : σ}
    (h : R.use g ⟨thisName, line⟩ a ⟨thisName, line⟩ a') :
    Alters R g (.expression (.this line a)) (.expression (.this line a'))
  | lambda {g : Bearing} {r : Routine ρ} {r' : Routine σ}
    (h : Alters R (g.part 0) (.routine .function r) (.routine .function r')) :
    Alters R g (.expression (.lambda r)) (.expression (.lambda r'))
  -- Arguments.
  | noArguments {g : Bearing} : Alters R g (.arguments []) (.arguments [])
  | arguments {g : Bearing} {x : Expr ρ} {x' : Expr σ} {xs : List (Expr ρ)} {xs' : List (Expr σ)}
    (h : Alters R (g.part 0) (.expression x) (.expression x'))
    (hxs : Alters R (g.part 1) (.arguments xs) (.arguments xs')) :
    Alters R g (.arguments (x :: xs)) (.arguments (x' :: xs'))
  -- Statements.
  | expression {g : Bearing} {x : Expr ρ} {x' : Expr σ}
    (h : Alters R (g.part 0) (.expression x) (.expression x')) :
    Alters R g (.statement (.expression x)) (.statement (.expression x'))
  | print {g : Bearing} {x : Expr ρ} {x' : Expr σ}
    (h : Alters R (g.part 0) (.expression x) (.expression x')) :
    Alters R g (.statement (.print x)) (.statement (.print x'))
  | unset {g : Bearing} {name name' : Name} (hname : R.declare g name name') :
    Alters R g (.statement (.var name none)) (.statement (.var name' none))
  | var {g : Bearing} {name name' : Name} {x : Expr ρ} {x' : Expr σ} (hname : R.declare g name name')
    (h : Alters R (g.part 0) (.expression x) (.expression x')) :
    Alters R g (.statement (.var name (some x))) (.statement (.var name' (some x')))
  | block {g : Bearing} {ss : List (Stmt ρ)} {ss' : List (Stmt σ)}
    (h : Alters R g.enter (.body ss) (.body ss')) :
    Alters R g (.statement (.block ss)) (.statement (.block ss'))
  | ifThen {g : Bearing} {x : Expr ρ} {x' : Expr σ} {s : Stmt ρ} {s' : Stmt σ}
    (h : Alters R (g.part 0) (.expression x) (.expression x'))
    (hs : Alters R (g.part 1) (.statement s) (.statement s')) :
    Alters R g (.statement (.branch x s none)) (.statement (.branch x' s' none))
  | ifElse {g : Bearing} {x : Expr ρ} {x' : Expr σ} {s t : Stmt ρ} {s' t' : Stmt σ}
    (h : Alters R (g.part 0) (.expression x) (.expression x'))
    (hs : Alters R (g.part 1) (.statement s) (.statement s'))
    (ht : Alters R (g.part 2) (.statement t) (.statement t')) :
    Alters R g (.statement (.branch x s (some t))) (.statement (.branch x' s' (some t')))
  | while {g : Bearing} {x : Expr ρ} {x' : Expr σ} {s : Stmt ρ} {s' : Stmt σ}
    (h : Alters R (g.part 0) (.expression x) (.expression x'))
    (hs : Alters R (g.part 1) (.statement s) (.statement s')) :
    Alters R g (.statement (.while x s)) (.statement (.while x' s'))
  | function {g : Bearing} {name : Name} {r : Routine ρ} {r' : Routine σ} (hname : R.keep g name)
    (h : Alters R (g.part 0) (.routine .function r) (.routine .function r')) :
    Alters R g (.statement (.function name r)) (.statement (.function name r'))
  | returnNothing {g : Bearing} {line : Int} :
    Alters R g (.statement (.return line none)) (.statement (.return line none))
  | return {g : Bearing} {line : Int} {x : Expr ρ} {x' : Expr σ}
    (h : Alters R (g.part 0) (.expression x) (.expression x')) :
    Alters R g (.statement (.return line (some x))) (.statement (.return line (some x')))
  | class {g : Bearing} {name : Name} {ms : List (Name × Routine ρ)} {ms' : List (Name × Routine σ)}
    (hname : R.keep g name) (h : Alters R g.inClass (.methods ms) (.methods ms')) :
    Alters R g (.statement (.class name ms)) (.statement (.class name ms'))
  -- Bodies, routines and methods.
  | noStatements {g : Bearing} : Alters R g (.body []) (.body [])
  | statements {g : Bearing} {s : Stmt ρ} {s' : Stmt σ} {ss : List (Stmt ρ)} {ss' : List (Stmt σ)}
    (h : Alters R (g.part 0) (.statement s) (.statement s'))
    (hss : Alters R (g.part 1) (.body ss) (.body ss')) :
    Alters R g (.body (s :: ss)) (.body (s' :: ss'))
  | routine {g : Bearing} {kind : RoutineKind} {ps ps' : List Name} {ss : List (Stmt ρ)}
    {ss' : List (Stmt σ)} (hps : List.Forall₂ (R.declare g.enter) ps ps')
    (h : Alters R g.enter (.body ss) (.body ss')) :
    Alters R g (.routine kind (.mk ps ss)) (.routine kind (.mk ps' ss'))
  | noMethods {g : Bearing} : Alters R g (.methods []) (.methods [])
  | methods {g : Bearing} {name : Name} {r : Routine ρ} {r' : Routine σ} {ms : List (Name × Routine ρ)}
    {ms' : List (Name × Routine σ)}
    (h : Alters R (g.part 0) (.routine (methodKind name) r) (.routine (methodKind name) r'))
    (hms : Alters R (g.part 1) (.methods ms) (.methods ms')) :
    Alters R g (.methods ((name, r) :: ms)) (.methods ((name, r') :: ms'))

namespace Node.Alters

section

variable {ρ σ : Type} {R : NameRule ρ σ} {g : Bearing} {u : Node σ}

/-- An expression is altered to an expression. -/
theorem exists_expression {x : Expr ρ} (h : Alters R g (.expression x) u) :
    ∃ x', u = .expression x' := by
  cases h <;> exact ⟨_, rfl⟩

/-- Arguments are altered to arguments. -/
theorem exists_arguments {xs : List (Expr ρ)} (h : Alters R g (.arguments xs) u) :
    ∃ xs', u = .arguments xs' := by
  cases h <;> exact ⟨_, rfl⟩

/-- There are as many arguments as before. -/
theorem length_arguments {xs : List (Expr ρ)} {xs' : List (Expr σ)}
    (h : Alters R g (.arguments xs) (.arguments xs')) : xs.length = xs'.length := by
  induction xs generalizing g xs' with
  | nil =>
    cases h
    rfl
  | cons x xs ih =>
    cases h with
    | arguments _ hxs => exact congrArg (· + 1) (ih hxs)

/-- A statement is altered to a statement. -/
theorem exists_statement {s : Stmt ρ} (h : Alters R g (.statement s) u) : ∃ s', u = .statement s' := by
  cases h <;> exact ⟨_, rfl⟩

/-- A body is altered to a body. -/
theorem exists_body {ss : List (Stmt ρ)} (h : Alters R g (.body ss) u) : ∃ ss', u = .body ss' := by
  cases h <;> exact ⟨_, rfl⟩

/-- A routine is altered to a routine of the same kind. -/
theorem exists_routine {kind : RoutineKind} {r : Routine ρ} (h : Alters R g (.routine kind r) u) :
    ∃ r', u = .routine kind r' := by
  cases h
  exact ⟨_, rfl⟩

/-- Methods are altered to methods. -/
theorem exists_methods {ms : List (Name × Routine ρ)} (h : Alters R g (.methods ms) u) :
    ∃ ms', u = .methods ms' := by
  cases h <;> exact ⟨_, rfl⟩

end

section

variable {ρ : Type} {R : NameRule ρ ρ}

mutual

/-- An expression away from the scope, by its parts. -/
theorem refl_expression (hR : R.Idle) : (x : Expr ρ) → Alters R .apart (.expression x) (.expression x)
  | .literal _ => .literal
  | .grouping x => .grouping (refl_expression hR x)
  | .unary _ _ x => .unary (refl_expression hR x)
  | .binary _ _ x y => .binary (refl_expression hR x) (refl_expression hR y)
  | .logical _ x y => .logical (refl_expression hR x) (refl_expression hR y)
  | .variable n a => .variable (hR.use n a)
  | .assign n a x => .assign (hR.use n a) (refl_expression hR x)
  | .call x _ xs => .call (refl_expression hR x) (refl_arguments hR xs)
  | .get x _ => .get (refl_expression hR x)
  | .set y _ x => .set (refl_expression hR x) (refl_expression hR y)
  | .this line a => .this (hR.use ⟨thisName, line⟩ a)
  | .lambda r => .lambda (refl_routine hR .function r)

/-- Arguments away from the scope, one by one. -/
theorem refl_arguments (hR : R.Idle) :
    (xs : List (Expr ρ)) → Alters R .apart (.arguments xs) (.arguments xs)
  | [] => .noArguments
  | x :: xs => .arguments (refl_expression hR x) (refl_arguments hR xs)

/-- A statement away from the scope, by its parts. -/
theorem refl_statement (hR : R.Idle) : (s : Stmt ρ) → Alters R .apart (.statement s) (.statement s)
  | .expression x => .expression (refl_expression hR x)
  | .print x => .print (refl_expression hR x)
  | .var n none => .unset (hR.declare n)
  | .var n (some x) => .var (hR.declare n) (refl_expression hR x)
  | .block ss => .block (refl_body hR ss)
  | .branch x s none => .ifThen (refl_expression hR x) (refl_statement hR s)
  | .branch x s (some t) =>
    .ifElse (refl_expression hR x) (refl_statement hR s) (refl_statement hR t)
  | .while x s => .while (refl_expression hR x) (refl_statement hR s)
  | .function n r => .function (hR.keep n) (refl_routine hR .function r)
  | .return _ none => .returnNothing
  | .return _ (some x) => .return (refl_expression hR x)
  | .class n ms => .class (hR.keep n) (refl_methods hR ms)

/-- Statements away from the scope, one by one. -/
theorem refl_body (hR : R.Idle) : (ss : List (Stmt ρ)) → Alters R .apart (.body ss) (.body ss)
  | [] => .noStatements
  | s :: ss => .statements (refl_statement hR s) (refl_body hR ss)

/-- A routine away from the scope: its parameters are left, and its body. -/
theorem refl_routine (hR : R.Idle) (kind : RoutineKind) :
    (r : Routine ρ) → Alters R .apart (.routine kind r) (.routine kind r)
  | .mk _ ss => .routine (List.forall₂_same.2 fun p _ => hR.declare p) (refl_body hR ss)

/-- Methods away from the scope, one by one. -/
theorem refl_methods (hR : R.Idle) :
    (ms : List (Name × Routine ρ)) → Alters R .apart (.methods ms) (.methods ms)
  | [] => .noMethods
  | (n, r) :: ms => .methods (refl_routine hR (methodKind n) r) (refl_methods hR ms)

end

/-- Away from the scope a part of a program may be left as it is. -/
theorem refl (hR : R.Idle) (node : Node ρ) : Alters R .apart node node := by
  cases node with
  | expression x => exact refl_expression hR x
  | arguments xs => exact refl_arguments hR xs
  | statement s => exact refl_statement hR s
  | body ss => exact refl_body hR ss
  | routine kind r => exact refl_routine hR kind r
  | methods ms => exact refl_methods hR ms

end

end Node.Alters

end Treewalk
