import Treewalk.Proofs.Scope.Bracketed
import Treewalk.Proofs.Scope.Illegal
import Treewalk.Proofs.Scope.Shift

/-!
# What a resolver writes is what resolving marks

A resolver whose state is what is known at a place (`Resolver.Same`) writes the addresses that resolving
marks at that place, each at its key, and reports the misuses among the findings (`Resolver.Tells`). The
keys are the marks of the part of the program before it is resolved, in the order of the walk
(`Stmt.marks`); without them it is what is resolved (`Stmt.unmarked`).

The two agree on programs without lone declarations only. Where a branch or the body of a loop is itself a
declaration, which no text is parsed to, a resolver leaves its name in the scope around, and resolving does
not.
-/

namespace Treewalk

variable {κ : Type}

/-! ## Marks -/

mutual

/-- The marks of an expression, in the order in which its names are resolved. -/
def Expr.marks : Expr κ → List κ
  | .literal _ => []
  | .grouping x | .unary _ _ x | .get x _ => x.marks
  | .binary _ _ x y | .logical _ x y | .set y _ x => x.marks ++ y.marks
  | .variable _ mark | .this _ mark => [mark]
  | .assign _ mark x => x.marks ++ [mark]
  | .call x _ xs => x.marks ++ Expr.marksList xs
  | .lambda f => f.marks

/-- The marks of expressions, in the same order. -/
def Expr.marksList : List (Expr κ) → List κ
  | [] => []
  | x :: xs => x.marks ++ Expr.marksList xs

/-- The marks of an expression, if it is not missing. -/
def Expr.marksOption : Option (Expr κ) → List κ
  | none => []
  | some x => x.marks

/-- The marks of a statement, in the order in which its names are resolved. -/
def Stmt.marks : Stmt κ → List κ
  | .expression x | .print x => x.marks
  | .var _ x | .return _ x => Expr.marksOption x
  | .block ss => Stmt.marksList ss
  | .branch x s s' => x.marks ++ (s.marks ++ Stmt.marksOption s')
  | .while x s => x.marks ++ s.marks
  | .function _ f => f.marks
  | .class _ ms => Routine.marksMethods ms

/-- The marks of statements, in the same order. -/
def Stmt.marksList : List (Stmt κ) → List κ
  | [] => []
  | s :: ss => s.marks ++ Stmt.marksList ss

/-- The marks of a statement, if it is not missing. -/
def Stmt.marksOption : Option (Stmt κ) → List κ
  | none => []
  | some s => s.marks

/-- The marks in the body of a routine. -/
def Routine.marks : Routine κ → List κ
  | .mk _ ss => Stmt.marksList ss

/-- The marks of methods, in the same order. -/
def Routine.marksMethods : List (Name × Routine κ) → List κ
  | [] => []
  | (_, f) :: ms => f.marks ++ Routine.marksMethods ms

end

mutual

/-- An expression without its marks. -/
def Expr.unmarked : Expr κ → Expr Unit
  | .literal value => .literal value
  | .grouping x => .grouping x.unmarked
  | .unary op line x => .unary op line x.unmarked
  | .binary op line x y => .binary op line x.unmarked y.unmarked
  | .logical op x y => .logical op x.unmarked y.unmarked
  | .variable name _ => .variable name ()
  | .assign name _ x => .assign name () x.unmarked
  | .call x line xs => .call x.unmarked line (Expr.unmarkedList xs)
  | .get x property => .get x.unmarked property
  | .set y property x => .set y.unmarked property x.unmarked
  | .this line _ => .this line ()
  | .lambda f => .lambda f.unmarked

/-- Expressions without their marks. -/
def Expr.unmarkedList : List (Expr κ) → List (Expr Unit)
  | [] => []
  | x :: xs => x.unmarked :: Expr.unmarkedList xs

/-- An expression without its marks, if it is not missing. -/
def Expr.unmarkedOption : Option (Expr κ) → Option (Expr Unit)
  | none => none
  | some x => some x.unmarked

/-- A statement without its marks. -/
def Stmt.unmarked : Stmt κ → Stmt Unit
  | .expression x => .expression x.unmarked
  | .print x => .print x.unmarked
  | .var name x => .var name (Expr.unmarkedOption x)
  | .block ss => .block (Stmt.unmarkedList ss)
  | .branch x s s' => .branch x.unmarked s.unmarked (Stmt.unmarkedOption s')
  | .while x s => .while x.unmarked s.unmarked
  | .function name f => .function name f.unmarked
  | .return line x => .return line (Expr.unmarkedOption x)
  | .class name ms => .class name (Routine.unmarkedMethods ms)

/-- Statements without their marks. -/
def Stmt.unmarkedList : List (Stmt κ) → List (Stmt Unit)
  | [] => []
  | s :: ss => s.unmarked :: Stmt.unmarkedList ss

/-- A statement without its marks, if it is not missing. -/
def Stmt.unmarkedOption : Option (Stmt κ) → Option (Stmt Unit)
  | none => none
  | some s => some s.unmarked

/-- A routine without its marks. -/
def Routine.unmarked : Routine κ → Routine Unit
  | .mk parameters ss => .mk parameters (Stmt.unmarkedList ss)

/-- Methods without their marks. -/
def Routine.unmarkedMethods : List (Name × Routine κ) → List (Name × Routine Unit)
  | [] => []
  | (name, f) :: ms => (name, f.unmarked) :: Routine.unmarkedMethods ms

end

namespace Resolver

/-! ## Places -/

/-- What resolving knows at a place is what the resolver is in. -/
structure Same (r : Resolver κ) (c : Scoping) : Prop where
  scopes : r.scopes = c.scopes
  routine : r.routine = c.routine
  inClass : r.inClass = c.inClass

section

variable {r : Resolver κ} {c : Scoping} {f : Resolver κ → Resolver κ} {W : κ → Nat → Prop}

/-- One node further in, the same is known. -/
theorem Same.inside (h : r.Same c) : r.Same c.inside := ⟨h.scopes, h.routine, h.inClass⟩

/-- In a new scope, the same is known as in a resolver that opens one. -/
theorem Same.push (h : r.Same c) : Same { r with scopes := [] :: r.scopes } (c.push []) :=
  ⟨congrArg ([] :: ·) h.scopes, h.routine, h.inClass⟩

/-- A walk that adds no names leaves the resolver in what is known. -/
theorem Same.walk (h : r.Same c) (hf : Brackets f [] W) : (f r).Same c where
  scopes := by rw [hf.scopes, settle_nil, h.scopes]
  routine := (hf.routine r).trans h.routine
  inClass := (hf.inClass r).trans h.inClass

/-- What is known after a name is put into the innermost scope is what a walk settles there. -/
theorem scopes_put (c : Scoping) (name : String) (ready : Bool) :
    (c.put name ready).scopes = settle [(name, ready)] c.scopes := by
  unfold Scoping.put
  split <;> next h => rw [h]; rfl

/-- A walk that adds one name leaves the resolver in what is known after the name is put. -/
theorem Same.put {name : String} {ready : Bool} (h : r.Same c) (hf : Brackets f [(name, ready)] W) :
    (f r).Same (c.put name ready) := by
  refine ⟨?_, ?_, ?_⟩
  · rw [hf.scopes, scopes_put, h.scopes]
  · rw [hf.routine, h.routine]
    unfold Scoping.put
    split <;> rfl
  · rw [hf.inClass, h.inClass]
    unfold Scoping.put
    split <;> rfl

/-- Where the methods of a class begin, as a resolver comes there. -/
theorem define_inClassBody (c : Scoping) (name : Name) :
    ((({ c with inClass := true } : Scoping).define name).inside.push []).put thisName true =
      (c.define name).inside.inClassBody := by
  obtain ⟨scopes, routine, inClass, depth, maxDepth⟩ := c
  cases scopes <;> rfl

/-- After a declaration the resolver is in what is known once the name is defined. -/
theorem Same.declared (h : r.Same c) (name : Name) :
    ((r.declare name).define name).Same (c.define name) :=
  h.put (brackets_id.declared (W := fun _ _ => True) name)

/-- The scopes after a declaration are those that are known once the name is defined. -/
theorem scopes_declared (name : Name) (h : r.scopes = c.scopes) :
    ((r.declare name).define name).scopes = (c.define name).scopes := by
  have hdeclared := brackets_id.declared (κ := κ) (W := fun _ _ => True) name
  rw [hdeclared.scopes, h]
  exact (scopes_put c name.text true).symm

/-- What a resolver is in where the body of a routine begins. -/
theorem Same.parameters (h : r.Same c) (ps : List Name) :
    (ps.foldl (fun r p => (r.declare p).define p) r).Same (ps.foldl Scoping.define c) := by
  induction ps generalizing r c with
  | nil => exact h
  | cons p ps ih => exact ih (h.declared p)

end

/-! ## What a resolver tells on its way -/

variable [DecidableEq κ]

/-- A table after distances are written into it, each at its key. Addresses of global names are not
written. -/
def record (table : κ → Option Nat) : List (κ × Address) → κ → Option Nat
  | [] => table
  | (_, .global) :: entries => record table entries
  | (key, .scope d) :: entries => record (fun k => if k = key then some d else table k) entries

/-- Two lists of distances are written one after the other. -/
theorem record_append (table : κ → Option Nat) (entries more : List (κ × Address)) :
    record table (entries ++ more) = record (record table entries) more := by
  induction entries generalizing table with
  | nil => rfl
  | cons e entries ih =>
    obtain ⟨key, - | d⟩ := e
    · exact ih table
    · exact ih _

/-- On the way from one state to another, a resolver reports the misuses among the findings and writes the
addresses, each at its key. -/
structure Tells (r r' : Resolver κ) (keys : List κ) (findings : List Finding)
    (addresses : List Address) : Prop where
  length : keys.length = addresses.length
  misuses : r'.misuses = r.misuses ++ findings.filterMap Finding.misuse?
  locals : r'.locals = record r.locals (keys.zip addresses)

section

variable {r r' r'' : Resolver κ} {keys keys' : List κ} {findings findings' : List Finding}
  {addresses addresses' : List Address}

/-- On no way at all nothing is told. -/
theorem Tells.refl : r.Tells r [] [] [] := ⟨rfl, (List.append_nil _).symm, rfl⟩

/-- What is told on two ways, one after the other, is told in this order. -/
theorem Tells.trans (h : r.Tells r' keys findings addresses)
    (h' : r'.Tells r'' keys' findings' addresses') :
    r.Tells r'' (keys ++ keys') (findings ++ findings') (addresses ++ addresses') where
  length := by rw [List.length_append, List.length_append, h.length, h'.length]
  misuses := by rw [h'.misuses, h.misuses, List.filterMap_append, List.append_assoc]
  locals := by rw [h'.locals, h.locals, List.zip_append h.length, record_append]

/-- What is told may be written in another way. -/
theorem Tells.congr (h : r.Tells r' keys findings addresses) (hfindings : findings' = findings)
    (haddresses : addresses' = addresses) : r.Tells r' keys findings' addresses' := by
  subst hfindings haddresses
  exact h

/-- That a node is nested too deeply is no misuse. -/
theorem Tells.node (h : r.Tells r' keys findings addresses) (c : Scoping)
    (hfindings : findings' = c.depthFindings ++ findings) (haddresses : addresses' = addresses) :
    r.Tells r' keys findings' addresses' := by
  subst hfindings haddresses
  exact ⟨h.length, h.misuses.trans (congrArg (r.misuses ++ ·) (Node.misuses_depth c findings).symm),
    h.locals⟩

/-- To put a name into a scope tells nothing. -/
theorem Tells.put (h : r.Tells r' keys findings addresses) (name : String) (ready : Bool) :
    r.Tells (r'.put name ready) keys findings addresses := by
  obtain ⟨scopes, locals, routine, inClass, misuses⟩ := r'
  cases scopes <;> exact ⟨h.length, h.misuses, h.locals⟩

section

variable {f : Resolver κ → Resolver κ}

/-- To open and close a scope tells nothing. -/
theorem Tells.inScope
    (h : Tells { r with scopes := [] :: r.scopes } (f { r with scopes := [] :: r.scopes }) keys
      findings addresses) : r.Tells (inScope f r) keys findings addresses :=
  ⟨h.length, h.misuses, h.locals⟩

/-- To enter and leave a routine tells nothing. -/
theorem Tells.inRoutine {kind : RoutineKind}
    (h : Tells { r with routine := some kind } (f { r with routine := some kind }) keys findings
      addresses) : r.Tells (inRoutine kind f r) keys findings addresses :=
  ⟨h.length, h.misuses, h.locals⟩

/-- To enter and leave a class tells nothing. -/
theorem Tells.inClassBody
    (h : Tells { r with inClass := true } (f { r with inClass := true }) keys findings addresses) :
    r.Tells (inClassBody f r) keys findings addresses :=
  ⟨h.length, h.misuses, h.locals⟩

end

/-- The address of a global name is not written. -/
theorem tells_global (key : κ) : r.Tells r [key] [] [.global] := ⟨rfl, (List.append_nil _).symm, rfl⟩

/-- A use of a name that is not looked for. -/
theorem Tells.skip (h : r.Tells r' keys findings addresses) (key : κ) :
    r.Tells r' (keys ++ [key]) findings (addresses ++ [.global]) :=
  (h.trans (tells_global key)).congr (List.append_nil _).symm rfl

/-! ## Steps -/

/-- A report tells the misuse that it is about. -/
theorem tells_report (place : Name) (what : Misuse) :
    r.Tells (r.report place what) [] [.misuse place what] [] := ⟨rfl, rfl, rfl⟩

variable {c : Scoping}

/-- A check of the innermost scope reports what is found there. -/
theorem tells_check (h : r.scopes = c.scopes) (p : Scope → Bool) (place : Name) (what : Misuse) :
    r.Tells (if r.scopes.head?.any p then r.report place what else r) []
      (match c.scopes with
        | σ :: _ => if p σ then [.misuse place what] else []
        | [] => []) [] := by
  rw [h]
  -- Both look at the innermost scope, if there is one.
  cases c.scopes with
  | nil => exact (Tells.refl : r.Tells r [] [] [])
  | cons σ σs =>
    rw [List.head?_cons, Option.any_some]
    show r.Tells _ [] (if p σ then [.misuse place what] else []) []
    by_cases hσ : p σ = true
    · rw [if_pos hσ, if_pos hσ]
      exact tells_report place what
    · rw [if_neg hσ, if_neg hσ]
      exact .refl

/-- To declare a name tells that it is declared again, if it is. -/
theorem tells_declare (h : r.scopes = c.scopes) (name : Name) :
    r.Tells (r.declare name) [] (c.redeclarations name) [] :=
  (tells_check h (·.holds name.text) name .redeclaration).put name.text false

/-- To declare a name and define it tells no more. -/
theorem tells_declared (h : r.scopes = c.scopes) (name : Name) :
    r.Tells ((r.declare name).define name) [] (c.redeclarations name) [] :=
  (tells_declare h name).put name.text true

/-- The check before a read tells that a variable is read in its own initializer, if it is. -/
theorem tells_checkRead (h : r.Same c) (name : Name) :
    r.Tells (r.checkRead name) [] (c.ownInitializers name) [] :=
  tells_check h.scopes (·.unready name.text) name .ownInitializer

/-- The check of a return statement tells what is wrong with it where it stands. -/
theorem tells_checkReturn (h : r.Same c) (line : Int) (hasValue : Bool) :
    r.Tells (r.checkReturn line hasValue) [] (c.returnMisuses line hasValue) [] := by
  unfold checkReturn Scoping.returnMisuses
  rw [h.routine]
  rcases c.routine with - | (- | - | -)
  · exact tells_report _ _
  · exact .refl
  · exact .refl
  · cases hasValue with
    | false => exact .refl
    | true => exact tells_report _ _

/-- A use of a name tells its address, which is written unless the name is global. -/
theorem tells_write (h : r.Same c) (key : κ) (name : String) :
    r.Tells (r.write key name) [key] [] [c.address name] := by
  have haddress : Scoping.addressFrom 0 name r.scopes = c.address name := by
    rw [h.scopes]
    rfl
  unfold write
  rw [haddress]
  cases c.address name <;> exact ⟨rfl, (List.append_nil _).symm, rfl⟩

/-- The parameters of a routine tell which of them are declared again. -/
theorem tells_parameters (h : r.scopes = c.scopes) (ps : List Name) :
    r.Tells (ps.foldl (fun r p => (r.declare p).define p) r) [] (c.parameterRedeclarations ps) [] := by
  induction ps generalizing r c with
  | nil => exact .refl
  | cons p ps ih => exact (tells_declared h p).trans (ih (scopes_declared p h))

end

end Resolver

/-! ## Programs without lone declarations -/

/-- If no declaration stands alone in a branch or a loop, a statement adds no names but its own. -/
theorem Stmt.gains_eq_declared :
    (s : Stmt κ) → (Node.statement s.unmarked).NestedThroughout → s.gains = s.unmarked.declared
  | .branch x s none, h => (s.gains_eq_declared (h.below (.tail _ (.head _)))).trans h.nested.1
  | .branch x s (some s'), h => by
    have hs := (s.gains_eq_declared (h.below (.tail _ (.head _)))).trans h.nested.1
    have hs' := (s'.gains_eq_declared (h.below (.tail _ (.tail _ (.head _))))).trans (h.nested.2 _ rfl)
    show s.gains ++ s'.gains = []
    rw [hs, hs']
    rfl
  | .while x s, h => (s.gains_eq_declared (h.below (.tail _ (.head _)))).trans h.nested
  | .expression _, _ | .print _, _ | .var _ _, _ | .block _, _ | .function _ _, _ | .return _ _, _
  | .class _ _, _ => rfl

section

variable [DecidableEq κ]

open Resolver

variable {r : Resolver κ} {c : Scoping}

/-- After a statement the resolver is in what is known there. -/
theorem Resolver.Same.after (h : r.Same c) (s : Stmt κ)
    (hn : (Node.statement s.unmarked).NestedThroughout) : (s.walk r).Same (c.after s.unmarked) := by
  have hs := s.brackets
  rw [s.gains_eq_declared hn] at hs
  -- Only these three declare a name; `c.after` is `c` after all others.
  cases s with
  | var n x | function n f | «class» n ms => exact h.put hs
  | _ => exact h.walk hs

/-- A statement that declares nothing leaves the resolver where it was. -/
theorem Resolver.Same.aside (h : r.Same c) (s : Stmt κ)
    (hn : (Node.statement s.unmarked).NestedThroughout) (hs : s.unmarked.declared = []) :
    (s.walk r).Same c := by
  have hbrackets := s.brackets
  rw [s.gains_eq_declared hn, hs] at hbrackets
  exact h.walk hbrackets

-- The induction goes along the tree. What carries it from part to part is that each part is well bracketed:
-- the resolver comes to the next one in what resolving knows there.
mutual

/-- On its walk over an expression the resolver tells what resolving the expression finds, and its
addresses. -/
theorem Expr.tells : (x : Expr κ) → (Node.expression x.unmarked).NestedThroughout →
    ∀ {r : Resolver κ} {c : Scoping}, r.Same c →
      r.Tells (x.walk r) x.marks (x.unmarked.resolve c).findings (x.unmarked.resolve c).value.marks
  | .literal _, _, _, c, _ => Tells.refl.node c rfl rfl
  | .grouping x, hn, _, c, h | .unary _ _ x, hn, _, c, h | .get x _, hn, _, c, h =>
    (x.tells (hn.below (.head _)) h.inside).node c (by simp [Expr.unmarked, Expr.resolve]) rfl
  | .binary _ _ x y, hn, _, c, h | .logical _ x y, hn, _, c, h | .set y _ x, hn, _, c, h => by
    have hx := x.tells (hn.below (.head _)) h.inside
    have hy := y.tells (hn.below (.tail _ (.head _))) (h.inside.walk x.brackets)
    exact (hx.trans hy).node c (by simp [Expr.unmarked, Expr.resolve]) rfl
  | .variable name key, _, _, c, h => by
    have hwrite := tells_write (h.walk (brackets_checkRead (W := fun _ _ => True) name)) key name.text
    exact ((tells_checkRead h name).trans hwrite).node c (by simp [Expr.unmarked, Expr.resolve]) rfl
  | .assign name key x, hn, _, c, h => by
    have hx := x.tells (hn.below (.head _)) h.inside
    have hwrite := tells_write (h.walk x.brackets) key name.text
    exact (hx.trans hwrite).node c (by simp [Expr.unmarked, Expr.resolve]) rfl
  | .call x _ xs, hn, _, c, h => by
    have hx := x.tells (hn.below (.head _)) h.inside
    have hxs := Expr.tellsList xs (hn.below (.tail _ (.head _))) (h.inside.walk x.brackets)
    exact (hx.trans hxs).node c (by simp [Expr.unmarked, Expr.resolve]) rfl
  | .this line key, _, _, c, h => by
    rw [Expr.walk, h.inClass]
    cases hclass : c.inClass with
    | true =>
      refine (tells_write h key thisName).node c ?_ ?_
      · simp [Expr.unmarked, Expr.resolve, hclass]
      · simp [Expr.unmarked, Expr.resolve, hclass, Expr.marks]
    | false =>
      -- Outside of a class the receiver is not looked for: its mark is that of a global name, and nothing
      -- is written.
      refine ((tells_report ⟨thisName, line⟩ .thisOutside).skip key).node c ?_ ?_
      · simp [Expr.unmarked, Expr.resolve, hclass]
      · simp [Expr.unmarked, Expr.resolve, hclass, Expr.marks]
  | .lambda f, hn, _, c, h =>
    (f.tells .function (hn.below (.head _)) h.inside).node c (by simp [Expr.unmarked, Expr.resolve]) rfl

/-- So it does on its walk over arguments. -/
theorem Expr.tellsList :
    (xs : List (Expr κ)) → (Node.arguments (Expr.unmarkedList xs)).NestedThroughout →
    ∀ {r : Resolver κ} {c : Scoping}, r.Same c →
      r.Tells (Expr.walkList xs r) (Expr.marksList xs)
        (Expr.resolveList c (Expr.unmarkedList xs)).findings
        (Expr.marksList (Expr.resolveList c (Expr.unmarkedList xs)).value)
  | [], _, _, _, _ => .refl
  | x :: xs, hn, _, _, h => by
    have hx := x.tells (hn.below (.head _)) h
    have hxs := Expr.tellsList xs (hn.below (.tail _ (.head _))) (h.walk x.brackets)
    exact (hx.trans hxs).congr (by simp [Expr.unmarkedList, Expr.resolveList]) rfl

/-- So it does if the expression may be missing. -/
theorem Expr.tellsOption : (x : Option (Expr κ)) →
    (∀ y, x = some y → (Node.expression y.unmarked).NestedThroughout) →
    ∀ {r : Resolver κ} {c : Scoping}, r.Same c →
      r.Tells (Expr.walkOption x r) (Expr.marksOption x)
        (Expr.resolveOption c (Expr.unmarkedOption x)).findings
        (Expr.marksOption (Expr.resolveOption c (Expr.unmarkedOption x)).value)
  | none, _, _, _, _ => .refl
  | some x, hn, _, c, h =>
    (x.tells (hn x rfl) h).congr (by simp [Expr.unmarkedOption, Expr.resolveOption]) rfl

/-- On its walk over a statement the resolver tells what resolving the statement finds, and its addresses.
-/
theorem Stmt.tells : (s : Stmt κ) → (Node.statement s.unmarked).NestedThroughout →
    ∀ {r : Resolver κ} {c : Scoping}, r.Same c →
      r.Tells (s.walk r) s.marks (s.unmarked.resolve c).findings (s.unmarked.resolve c).value.marks
  | .expression x, hn, _, c, h | .print x, hn, _, c, h =>
    (x.tells (hn.below (.head _)) h.inside).node c (by simp [Stmt.unmarked, Stmt.resolve]) rfl
  | .var name x, hn, _, c, h => by
    have hdeclared := h.put (brackets_declare (W := fun _ _ => True) name)
    have hx := Expr.tellsOption x (fun y hy => by subst hy; exact hn.below (.head _)) hdeclared.inside
    exact (((tells_declare h.scopes name).trans hx).put name.text true).node c
      (by simp [Stmt.unmarked, Stmt.resolve, Scoping.declare]) rfl
  | .block ss, hn, _, c, h =>
    (Stmt.tellsList ss (hn.below (.head _)) h.inside.push).inScope.node c
      (by simp [Stmt.unmarked, Stmt.resolve]) rfl
  | .branch x s s', hn, _, c, h => by
    obtain ⟨hxn, hsn⟩ : (Node.expression x.unmarked).NestedThroughout ∧
        (Node.statement s.unmarked).NestedThroughout := by
      cases s' <;> exact ⟨hn.below (.head _), hn.below (.tail _ (.head _))⟩
    have hx := x.tells hxn h.inside
    have htrue := s.tells hsn (h.inside.walk x.brackets)
    have hfalse := Stmt.tellsOption s'
      (fun t ht => by subst ht; exact hn.below (.tail _ (.tail _ (.head _))))
      ((h.inside.walk x.brackets).aside s hsn hn.nested.1)
    exact (hx.trans (htrue.trans hfalse)).node c (by simp [Stmt.unmarked, Stmt.resolve]) rfl
  | .while x s, hn, _, c, h => by
    have hx := x.tells (hn.below (.head _)) h.inside
    have hs := s.tells (hn.below (.tail _ (.head _))) (h.inside.walk x.brackets)
    exact (hx.trans hs).node c (by simp [Stmt.unmarked, Stmt.resolve]) rfl
  | .function name f, hn, _, c, h => by
    have hf := f.tells .function (hn.below (.head _)) (h.declared name).inside
    exact ((tells_declared h.scopes name).trans hf).node c
      (by simp [Stmt.unmarked, Stmt.resolve, Scoping.define]) rfl
  | .return line x, hn, _, c, h => by
    have hchecked := h.walk (brackets_checkReturn (W := fun _ _ => True) line x.isSome)
    have hx := Expr.tellsOption x (fun y hy => by subst hy; exact hn.below (.head _)) hchecked.inside
    have hvalue : (Expr.unmarkedOption x).isSome = x.isSome := by cases x <;> rfl
    exact ((tells_checkReturn h line x.isSome).trans hx).node c
      (by simp [Stmt.unmarked, Stmt.resolve, hvalue]) rfl
  | .class name ms, hn, r, c, h => by
    -- A resolver is in the class before it declares its name, which the declaration does not notice.
    have hbody : Same { r with inClass := true } { c with inClass := true } := ⟨h.scopes, h.routine, rfl⟩
    have hthis := (hbody.declared name).inside.push.put (brackets_put (W := fun _ _ => True) thisName true)
    rw [define_inClassBody] at hthis
    have hmethods := (Tells.refl.put thisName true).trans
      (Routine.tellsMethods ms (hn.below (.head _)) hthis)
    have hscope := (tells_declared hbody.scopes name).trans
      (Tells.inScope (f := fun r => Routine.walkMethods ms (r.put thisName true)) hmethods)
    exact (Tells.inClassBody (f := fun r => inScope _ ((r.declare name).define name)) hscope).node c
      (by simp [Stmt.unmarked, Stmt.resolve, Scoping.redeclarations]) rfl

/-- So it does on its walk over a body. -/
theorem Stmt.tellsList :
    (ss : List (Stmt κ)) → (Node.body (Stmt.unmarkedList ss)).NestedThroughout →
    ∀ {r : Resolver κ} {c : Scoping}, r.Same c →
      r.Tells (Stmt.walkList ss r) (Stmt.marksList ss)
        (Stmt.resolveList c (Stmt.unmarkedList ss)).findings
        (Stmt.marksList (Stmt.resolveList c (Stmt.unmarkedList ss)).value)
  | [], _, _, _, _ => .refl
  | s :: ss, hn, _, _, h => by
    have hs := s.tells (hn.below (.head _)) h
    have hss := Stmt.tellsList ss (hn.below (.tail _ (.head _))) (h.after s (hn.below (.head _)))
    exact (hs.trans hss).congr (by simp [Stmt.unmarkedList, Stmt.resolveList]) rfl

/-- So it does if the statement may be missing. -/
theorem Stmt.tellsOption : (s : Option (Stmt κ)) →
    (∀ t, s = some t → (Node.statement t.unmarked).NestedThroughout) →
    ∀ {r : Resolver κ} {c : Scoping}, r.Same c →
      r.Tells (Stmt.walkOption s r) (Stmt.marksOption s)
        (Stmt.resolveOption c (Stmt.unmarkedOption s)).findings
        (Stmt.marksOption (Stmt.resolveOption c (Stmt.unmarkedOption s)).value)
  | none, _, _, _, _ => .refl
  | some s, hn, _, c, h =>
    (s.tells (hn s rfl) h).congr (by simp [Stmt.unmarkedOption, Stmt.resolveOption]) rfl

/-- On its walk over a routine the resolver tells what resolving the routine finds, and its addresses. -/
theorem Routine.tells (kind : RoutineKind) :
    (f : Routine κ) → (Node.routine kind f.unmarked).NestedThroughout →
    ∀ {r : Resolver κ} {c : Scoping}, r.Same c →
      r.Tells (f.walk kind r) f.marks (f.unmarked.resolve c kind).findings
        (f.unmarked.resolve c kind).value.marks
  | .mk ps ss, hn, r, c, h => by
    have hbody : Same { r with routine := some kind } { c with routine := some kind } :=
      ⟨h.scopes, rfl, h.inClass⟩
    -- What is found of the parameters does not depend on the routine that they are in.
    have hps := tells_parameters (c := c.push []) hbody.push.scopes ps
    have hss := Stmt.tellsList ss (hn.below (.head _)) (hbody.push.parameters ps)
    have hscope := Tells.inScope (f := fun r =>
      Stmt.walkList ss (ps.foldl (fun r p => (r.declare p).define p) r)) (hps.trans hss)
    exact hscope.inRoutine.congr (by simp [Routine.unmarked, Routine.resolve, Scoping.inRoutine]) rfl

/-- So it does on its walk over methods. -/
theorem Routine.tellsMethods :
    (ms : List (Name × Routine κ)) → (Node.methods (Routine.unmarkedMethods ms)).NestedThroughout →
    ∀ {r : Resolver κ} {c : Scoping}, r.Same c →
      r.Tells (Routine.walkMethods ms r) (Routine.marksMethods ms)
        (Routine.resolveMethods c (Routine.unmarkedMethods ms)).findings
        (Routine.marksMethods (Routine.resolveMethods c (Routine.unmarkedMethods ms)).value)
  | [], _, _, _, _ => .refl
  | (name, f) :: ms, hn, _, _, h => by
    have hf := f.tells (methodKind name) (hn.below (.head _)) h
    have hms := Routine.tellsMethods ms (hn.below (.tail _ (.head _)))
      (h.walk (f.brackets (methodKind name)))
    exact (hf.trans hms).congr (by simp [Routine.unmarkedMethods, Routine.resolveMethods]) rfl

end

end

end Treewalk
