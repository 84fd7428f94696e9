import Treewalk.Proofs.Grammar.Completeness
import Treewalk.Proofs.Grammar.Given

/-!
# Lexical addresses

A node of a program is at a path: the positions of the parts that lead to it from the program. The
path alone tells which scopes are around the node and what is declared in them before it
(`Node.scopesAround`): no table of names is kept on the way. Resolving finds every name in the
innermost of these scopes that holds it (`resolveProgram_distances`), whatever is wrong with the
program.

What resolving knows at a node and the scopes that the path tells are related by `Knows`, which every
step down the tree preserves (`Knows.part`).
-/

namespace Treewalk

namespace Node

variable {ρ : Type}

/-! ## Paths -/

/-- The parts of a node, in the order in which they are written. A loop or a conditional has its
condition first. -/
def children : Node ρ → List (Node ρ)
  | expression x =>
    match x with
    | .literal _ | .variable _ _ | .this _ _ => []
    | .grouping x | .unary _ _ x | .assign _ _ x | .get x _ => [expression x]
    | .binary _ _ x y | .logical _ x y | .set x _ y => [expression x, expression y]
    | .call x _ xs => expression x :: xs.map expression
    | .lambda r => [routine .function r]
  | arguments xs => xs.map expression
  | statement s =>
    match s with
    | .expression x | .print x | .var _ (some x) | .return _ (some x) => [expression x]
    | .var _ none | .return _ none => []
    | .block ss => ss.map statement
    | .branch x s none | .while x s => [expression x, statement s]
    | .branch x s (some s') => [expression x, statement s, statement s']
    | .function _ r => [routine .function r]
    | .class _ ms => ms.map fun m => routine (methodKind m.1) m.2
  | body ss => ss.map statement
  | routine _ r => r.body.map statement
  | methods ms => ms.map fun m => routine (methodKind m.1) m.2

/-- The node at a path. -/
def at? : Node ρ → List Nat → Option (Node ρ)
  | node, [] => some node
  | node, i :: path =>
    match node.children[i]? with
    | none => none
    | some part => part.at? path

/-- The scope that a node opens around its part at a position, if it opens one: the names declared in
it up to the part. A block, a routine and a class open one. The parameters of a routine are in the
scope of its body. A declaration comes before its own parts. -/
def opened (i : Nat) : Node ρ → List (List String)
  | statement (.block ss) => [(ss.take (i + 1)).flatMap Stmt.declared]
  | statement (.class _ _) => [[thisName]]
  | routine _ r => [r.parameters.map Name.text ++ (r.body.take (i + 1)).flatMap Stmt.declared]
  | _ => []

/-- The scopes around the node at a path, the innermost first. -/
def scopesAround : Node ρ → List Nat → List (List String)
  | _, [] => []
  | node, i :: path =>
    match node.children[i]? with
    | none => []
    | some part => part.scopesAround path ++ node.opened i

/-- The name that a node uses. -/
def used? : Node ρ → Option String
  | expression (.variable n _) | expression (.assign n _ _) => some n.text
  | expression (.this _ _) => some thisName
  | _ => none

/-- The distance with which a resolved node stands in the table of local names. -/
def distance? : Node Address → Option Nat
  | expression (.variable _ (.scope k)) | expression (.assign _ (.scope k) _)
  | expression (.this _ (.scope k)) => some k
  | _ => none

/-- The number of scopes between the node at a path and the innermost one around it in which its name
is declared before it. -/
def lexicalDistance? (program : Node ρ) (path : List Nat) (node : Node ρ) : Option Nat :=
  node.used?.bind fun n => (program.scopesAround path).findIdx? (n ∈ ·)

/-! ## Resolving along a path -/

/-- What is known where resolving comes to the part of a node at a position. -/
def scopingAt (c : Scoping) (i : Nat) : Node Unit → Scoping
  | expression _ => c.inside
  | arguments _ | methods _ => c
  | statement s =>
    match s with
    | .var n _ => (c.declare n).inside
    | .block ss => (ss.take i).foldl Scoping.after (c.inside.push [])
    | .function n _ => (c.define n).inside
    | .class n _ => (c.define n).inside.inClassBody
    | _ => c.inside
  | body ss => (ss.take i).foldl Scoping.after c
  | routine kind r => (r.body.take i).foldl Scoping.after (c.inRoutine kind r.parameters)

end Node

/-- Expressions in a list are resolved one by one, all at the same place. -/
theorem Expr.value_resolveList (c : Scoping) (xs : List (Expr Unit)) :
    (Expr.resolveList c xs).value = xs.map fun x => (x.resolve c).value := by
  induction xs with
  | nil => rfl
  | cons x xs ih => exact congrArg (_ :: ·) ih

/-- Methods are resolved one by one, all at the same place. -/
theorem Routine.value_resolveMethods (c : Scoping) (ms : List (Name × Routine Unit)) :
    (Routine.resolveMethods c ms).value =
      ms.map fun m => (m.1, (m.2.resolve c (methodKind m.1)).value) := by
  induction ms with
  | nil => rfl
  | cons m ms ih => exact congrArg (_ :: ·) ih

/-- A statement in a list is resolved after the names of those before it are declared. -/
theorem Stmt.getElem?_resolveList (c : Scoping) (ss : List (Stmt Unit)) (i : Nat) :
    (Stmt.resolveList c ss).value[i]? =
      ss[i]?.map fun s => (s.resolve ((ss.take i).foldl Scoping.after c)).value := by
  induction ss generalizing c i with
  | nil => rfl
  | cons s ss ih =>
    cases i with
    | zero => rfl
    | succ i => exact ih (c.after s) i

namespace Node

variable {c : Scoping}

/-- The same for the statements as parts of a program. -/
theorem getElem?_statements (c : Scoping) (ss : List (Stmt Unit)) (i : Nat) :
    ((Stmt.resolveList c ss).value.map statement)[i]? = (ss.map statement)[i]?.map fun part =>
      (part.resolve ((ss.take i).foldl Scoping.after c)).value := by
  rw [List.getElem?_map, Stmt.getElem?_resolveList, List.getElem?_map]
  cases ss[i]? <;> rfl

/-- The same for expressions as parts of a program: no place comes after another. -/
theorem getElem?_expressions (c : Scoping) (xs : List (Expr Unit)) (i : Nat) :
    ((Expr.resolveList c xs).value.map expression)[i]? =
      (xs.map expression)[i]?.map fun part => (part.resolve c).value := by
  rw [Expr.value_resolveList, List.getElem?_map, List.getElem?_map, List.getElem?_map]
  cases xs[i]? <;> rfl

/-- The same for methods as parts of a program. -/
theorem getElem?_methods (c : Scoping) (ms : List (Name × Routine Unit)) (i : Nat) :
    ((Routine.resolveMethods c ms).value.map fun m => routine (methodKind m.1) m.2)[i]? =
      (ms.map fun m => routine (methodKind m.1) m.2)[i]?.map fun part => (part.resolve c).value := by
  rw [Routine.value_resolveMethods, List.getElem?_map, List.getElem?_map, List.getElem?_map]
  cases ms[i]? <;> rfl

/-- The parts of a resolved node are the resolved parts of the node. -/
theorem children_resolve (c : Scoping) (node : Node Unit) (i : Nat) :
    (node.resolve c).value.children[i]? =
      node.children[i]?.map fun part => (part.resolve (node.scopingAt c i)).value := by
  -- A node has one part or two, in the same scopes, or a list of them.
  have hone : ∀ (part : Node Unit) (c : Scoping), [(part.resolve c).value][i]? =
      [part][i]?.map fun part => (part.resolve c).value := by
    intro part c
    cases i <;> rfl
  have htwo : ∀ (a b : Node Unit) (c : Scoping), [(a.resolve c).value, (b.resolve c).value][i]? =
      [a, b][i]?.map fun part => (part.resolve c).value := by
    intro a b c
    rcases i with _ | _ | i <;> rfl
  cases node with
  | expression x =>
    cases x with
    | literal v | «variable» n m => rfl
    | this line m =>
      simp only [resolve, Expr.resolve]
      split <;> rfl
    | grouping x | unary op line x | assign n m x | get x n => exact hone (.expression x) _
    | binary op line x y | logical op x y | set x n y => exact htwo (.expression x) (.expression y) _
    | call x line xs =>
      cases i with
      | zero => rfl
      | succ i => exact getElem?_expressions c.inside xs i
    | lambda r => exact hone (.routine .function r) _
  | arguments xs => exact getElem?_expressions c xs i
  | statement s =>
    cases s with
    | expression x | print x => exact hone (.expression x) _
    | var n x =>
      cases x with
      | none => rfl
      | some x => exact hone (.expression x) _
    | block ss => exact getElem?_statements _ ss i
    | branch x s s' =>
      cases s' with
      | none => exact htwo (.expression x) (.statement s) _
      | some s' => rcases i with _ | _ | _ | i <;> rfl
    | «while» x s => exact htwo (.expression x) (.statement s) _
    | function n r => exact hone (.routine .function r) _
    | «return» line x =>
      cases x with
      | none => rfl
      | some x => exact hone (.expression x) _
    | «class» n ms => exact getElem?_methods _ ms i
  | body ss => exact getElem?_statements c ss i
  | routine kind r =>
    obtain ⟨ps, ss⟩ := r
    exact getElem?_statements _ ss i
  | methods ms => exact getElem?_methods c ms i

/-- What is known where resolving comes to the node at a path. -/
def scopingAlong (c : Scoping) : Node Unit → List Nat → Scoping
  | _, [] => c
  | node, i :: path =>
    match node.children[i]? with
    | none => c
    | some part => part.scopingAlong (node.scopingAt c i) path

/-- The node at a path of a resolved program is resolved where resolving comes to it. -/
theorem at?_resolve (c : Scoping) (node : Node Unit) (path : List Nat) :
    (node.resolve c).value.at? path =
      (node.at? path).map fun m => (m.resolve (node.scopingAlong c path)).value := by
  induction path generalizing node c with
  | nil => rfl
  | cons i path ih =>
    simp only [at?, scopingAlong, children_resolve]
    cases node.children[i]? with
    | none => rfl
    | some part => exact ih _ part

end Node

/-! ## What resolving knows -/

/-- Resolving knows of the given names in the scopes around a place, and of no others. -/
structure Scoping.Knows (c : Scoping) (around : List (List String)) : Prop where
  scopes : List.Forall₂ (fun σ names => ∀ n, σ.holds n = true ↔ n ∈ names) c.scopes around
  inClass : c.inClass = true ↔ ∃ names ∈ around, thisName ∈ names

namespace Scoping

variable {c : Scoping} {scopes : List (List String)} {names : List String}

/-- Going inwards opens no scope. -/
theorem Knows.inside (h : c.Knows scopes) : c.inside.Knows scopes := ⟨h.scopes, h.inClass⟩

/-- Whether a declared name has its value makes no difference. -/
theorem Knows.declared {n : String} {b : Bool} (b' : Bool) (h : (c.put n b).Knows scopes) :
    (c.put n b').Knows scopes := by
  obtain ⟨σs, routine, inClass, depth, maxDepth⟩ := c
  obtain ⟨hscopes, hclass⟩ := h
  cases σs with
  | nil => exact ⟨hscopes, hclass⟩
  | cons σ σs =>
    cases hscopes with
    | cons hσ hσs =>
      refine ⟨.cons (fun m => ?_) hσs, hclass⟩
      rw [← hσ m, Scope.holds_put, Scope.holds_put]

/-- A statement adds what it declares to the innermost scope. -/
theorem Knows.after (h : c.Knows (names :: scopes)) {s : Stmt Unit} (hs : thisName ∉ s.declared) :
    (c.after s).Knows ((names ++ s.declared) :: scopes) := by
  -- A declaration adds its name to those that are known, and tells nothing else.
  have hput : ∀ n, thisName ≠ n → (c.put n true).Knows ((names ++ [n]) :: scopes) := by
    intro n hn
    obtain ⟨σs, routine, inClass, depth, maxDepth⟩ := c
    obtain ⟨hscopes, hclass⟩ := h
    cases hscopes with
    | cons hσ hσs =>
      refine ⟨.cons (fun m => ?_) hσs, ?_⟩
      · rw [Scope.holds_put, hσ m, List.mem_append, List.mem_singleton, or_comm]
      · show inClass = true ↔ _
        simpa [hn] using hclass
  cases s with
  | var n x | function n r | «class» n ms =>
    exact hput n.text fun heq => hs (by simp [Stmt.declared, heq])
  | _ =>
    show c.Knows ((names ++ []) :: scopes)
    rwa [List.append_nil]

/-- Statements add what they declare, one after the other. -/
theorem Knows.afterAll (h : c.Knows (names :: scopes)) {ss : List (Stmt Unit)}
    (hss : ∀ s ∈ ss, thisName ∉ s.declared) :
    (ss.foldl Scoping.after c).Knows ((names ++ ss.flatMap Stmt.declared) :: scopes) := by
  induction ss generalizing c names with
  | nil =>
    show c.Knows ((names ++ []) :: scopes)
    rwa [List.append_nil]
  | cons s ss ih =>
    rw [List.foldl_cons, List.flatMap_cons, ← List.append_assoc]
    exact ih (h.after (hss s List.mem_cons_self)) fun t ht => hss t (List.mem_cons_of_mem s ht)

/-- A block opens a scope without names. -/
theorem Knows.inBlock (h : c.Knows scopes) : (c.inside.push []).Knows ([] :: scopes) := by
  refine ⟨.cons (fun n => by simp [Scope.holds]) h.scopes, ?_⟩
  show c.inClass = true ↔ _
  simpa using h.inClass

/-- A class opens the scope of the receiver. -/
theorem Knows.inClassBody (h : c.Knows scopes) : c.inClassBody.Knows ([thisName] :: scopes) := by
  refine ⟨.cons (fun n => ?_) h.scopes, ?_⟩
  · rw [List.mem_singleton, Scope.holds_iff]
    simp
  · exact iff_of_true rfl ⟨_, List.mem_cons_self, List.mem_singleton_self _⟩

/-- A routine opens a scope with its parameters. -/
theorem Knows.inRoutine (h : c.Knows scopes) (kind : RoutineKind) {ps : List Name}
    (hps : thisName ∉ ps.map Name.text) :
    (c.inRoutine kind ps).Knows (ps.map Name.text :: scopes) := by
  constructor
  · rw [c.scopes_inRoutine kind ps]
    refine .cons (fun n => ?_) h.scopes
    rw [Scope.holds_iff]
    simp only [mem_parameterScope]
    exact ⟨fun ⟨_, hn, _⟩ => hn, fun hn => ⟨true, hn, rfl⟩⟩
  · rw [(c.routine_inRoutine kind ps).2, h.inClass]
    simp [hps]

/-- A name is found in the first scope that is said to hold it, counted from any number. -/
theorem addressFrom_eq_findIdx? {σs : List Scope} {scopes : List (List String)} {n : String}
    (h : List.Forall₂ (fun σ names => ∀ n, σ.holds n = true ↔ n ∈ names) σs scopes) (distance : Nat) :
    addressFrom distance n σs = match scopes.findIdx? (n ∈ ·) with
      | some k => .scope (distance + k)
      | none => .global := by
  induction h generalizing distance with
  | nil => rfl
  | @cons σ names σs scopes hσ _ ih =>
    rw [addressFrom_cons, List.findIdx?_cons]
    -- The name is in this scope, or it is counted on from the next.
    by_cases hn : n ∈ names
    · rw [if_pos ((hσ n).2 hn), if_pos (by simpa using hn)]
      rfl
    · rw [if_neg (mt (hσ n).1 hn), if_neg (by simpa using hn), ih (distance + 1)]
      cases scopes.findIdx? (n ∈ ·) with
      | none => rfl
      | some k =>
        show Address.scope (distance + 1 + k) = .scope (distance + (k + 1))
        rw [Nat.add_assoc, Nat.add_comm 1]

/-- A name is found in the innermost scope that holds it. -/
theorem Knows.address (h : c.Knows scopes) (n : String) :
    c.address n = match scopes.findIdx? (n ∈ ·) with
      | some k => .scope k
      | none => .global := by
  have haddress := addressFrom_eq_findIdx? (n := n) h.scopes 0
  simp only [Nat.zero_add] at haddress
  exact haddress

/-- A declaration of the outermost code leaves no trace in the scopes. -/
theorem after_outermost (maxDepth : Nat) (s : Stmt Unit) :
    (Scoping.outermost maxDepth).after s = .outermost maxDepth := by
  cases s <;> rfl

end Scoping

namespace Node

variable {c : Scoping} {scopes : List (List String)} {node part : Node Unit} {i : Nat}

/-- What is known at a node once its own declaration counts. -/
def settled (c : Scoping) : Node Unit → Scoping
  | statement s => c.after s
  | _ => c

/-- All nodes of a tree are worded. -/
def WordedThroughout (node : Node Unit) : Prop := ∀ path m, node.at? path = some m → m.Worded

/-- Parts of a part whose names are written are such. -/
theorem WordedThroughout.below (h : node.WordedThroughout) (hpart : node.children[i]? = some part) :
    part.WordedThroughout := by
  intro path m hm
  refine h (i :: path) m ?_
  simp only [at?, hpart]
  exact hm

/-- The statements of a worded tree do not declare the receiver's name. -/
theorem WordedThroughout.not_declared (h : node.WordedThroughout) {ss : List (Stmt Unit)}
    (hss : node.children = ss.map statement) : ∀ s ∈ ss, thisName ∉ s.declared := by
  intro s hs
  obtain ⟨j, hj⟩ := List.mem_iff_getElem?.1 hs
  have hpart : node.children[j]? = some (.statement s) := by rw [hss, List.getElem?_map, hj]; rfl
  exact (h.below hpart [] _ rfl).not_declared

/-- Only statements declare. -/
theorem settled_of_expression (c : Scoping) {x : Expr Unit}
    (hpart : (expression x).children[i]? = some part) : part.settled c = c := by
  have hmem := List.mem_of_getElem? hpart
  -- Expressions have parts that are no bodies, and nothing is settled before them.
  cases x with
  | literal v | «variable» n m | this line m => cases hmem
  | grouping x | unary op line x | assign n m x | get x n | lambda r =>
    cases List.mem_singleton.1 hmem
    rfl
  | binary op line x y | logical op x y | set x n y =>
    rcases List.mem_pair.1 hmem with rfl | rfl <;> rfl
  | call x line xs =>
    rcases List.mem_cons.1 hmem with rfl | hmem
    · rfl
    · obtain ⟨y, -, rfl⟩ := List.mem_map.1 hmem
      rfl

/-- Statements one after another, of which one is come to in the scope of what is around them. -/
theorem knows_statements {names : List String} {ss : List (Stmt Unit)} {s : Stmt Unit}
    (h : c.Knows (names :: scopes)) (hss : ∀ s ∈ ss, thisName ∉ s.declared) (hs : ss[i]? = some s) :
    (((ss.take i).foldl Scoping.after c).after s).Knows
      ((names ++ (ss.take (i + 1)).flatMap Stmt.declared) :: scopes) := by
  have htake : ss.take (i + 1) = ss.take i ++ [s] := by rw [List.take_add_one, hs]; rfl
  have hfold : ((ss.take i).foldl Scoping.after c).after s = (ss.take (i + 1)).foldl Scoping.after c := by
    rw [htake, List.foldl_append]
    rfl
  rw [hfold]
  exact h.afterAll fun t ht => hss t (List.mem_of_mem_take ht)

/-- A statement that declares nothing leaves the place as it is. -/
theorem after_of_declared (c : Scoping) {s : Stmt Unit} (h : s.declared = []) : c.after s = c := by
  cases s with
  | var n x | function n r | «class» n ms => cases h
  | _ => rfl

/-- A step down the tree: the scope that is opened there comes first. -/
theorem knows_part (h : (node.settled c).Knows scopes) (hworded : node.WordedThroughout)
    (hbody : ∀ ss, node ≠ .body ss) (hpart : node.children[i]? = some part) :
    (part.settled (node.scopingAt c i)).Knows (node.opened i ++ scopes) := by
  have hmem := List.mem_of_getElem? hpart
  -- Only a block, a class and a routine open a scope. The rest go on with what was known, where a
  -- declaration already counts for its own parts.
  cases node with
  | expression x =>
    rw [settled_of_expression _ hpart]
    exact h.inside
  | arguments xs =>
    obtain ⟨x, -, rfl⟩ := List.mem_map.1 hmem
    exact h
  | methods ms =>
    obtain ⟨m, -, rfl⟩ := List.mem_map.1 hmem
    exact h
  | body ss => exact absurd rfl (hbody ss)
  | routine kind r =>
    obtain ⟨s, hs, rfl⟩ := Option.map_eq_some_iff.1 (List.getElem?_map.symm.trans hpart)
    have hps : thisName ∉ r.parameters.map Name.text :=
      fun hn => not_isName_thisName ((hworded [] _ rfl).names _ hn)
    exact knows_statements (h.inRoutine kind hps) (hworded.not_declared rfl) hs
  | statement s =>
    have hnested := (hworded [] _ rfl).nested
    have hstatement : ∀ {t : Stmt Unit}, c.Knows scopes → t.declared = [] →
        ((statement t).settled c.inside).Knows scopes := fun h ht => by
      rw [settled, after_of_declared _ ht]
      exact h.inside
    cases s with
    | expression x | print x =>
      cases List.mem_singleton.1 hmem
      exact h.inside
    | «return» line x =>
      cases x with
      | none => cases hmem
      | some x =>
        cases List.mem_singleton.1 hmem
        exact h.inside
    | var n x =>
      cases x with
      | none => cases hmem
      | some x =>
        cases List.mem_singleton.1 hmem
        exact (h.declared false).inside
    | block ss =>
      obtain ⟨s, hs, rfl⟩ := Option.map_eq_some_iff.1 (List.getElem?_map.symm.trans hpart)
      exact knows_statements (Scoping.Knows.inBlock h) (hworded.not_declared rfl) hs
    | branch x s s' =>
      cases s' with
      | none =>
        simp only [children, List.mem_cons, List.not_mem_nil, or_false] at hmem
        rcases hmem with rfl | rfl
        · exact h.inside
        · exact hstatement h hnested.1
      | some s' =>
        simp only [children, List.mem_cons, List.not_mem_nil, or_false] at hmem
        rcases hmem with rfl | rfl | rfl
        · exact h.inside
        · exact hstatement h hnested.1
        · exact hstatement h (hnested.2 s' rfl)
    | «while» x s =>
      simp only [children, List.mem_cons, List.not_mem_nil, or_false] at hmem
      rcases hmem with rfl | rfl
      · exact h.inside
      · exact hstatement h hnested
    | function n r =>
      cases List.mem_singleton.1 hmem
      exact h.inside
    | «class» n ms =>
      obtain ⟨m, -, rfl⟩ := List.mem_map.1 hmem
      exact h.inside.inClassBody

/-- No part of a node is a whole body. -/
theorem ne_body (hpart : node.children[i]? = some part) (ss : List (Stmt Unit)) : part ≠ .body ss := by
  rintro rfl
  have hmem := List.mem_of_getElem? hpart
  cases node with
  | expression x => cases x <;> simp [children] at hmem
  | statement s =>
    cases s with
    | var n x => cases x <;> simp [children] at hmem
    | «return» line x => cases x <;> simp [children] at hmem
    | branch x s s' => cases s' <;> simp [children] at hmem
    | _ => simp [children] at hmem
  | _ => simp [children] at hmem

/-- What is known at the node at a path is what the path tells. -/
theorem knows_along {path : List Nat} {m : Node Unit} (h : (node.settled c).Knows scopes)
    (hworded : node.WordedThroughout) (hbody : ∀ ss, node ≠ .body ss) (hm : node.at? path = some m) :
    (m.settled (node.scopingAlong c path)).Knows (node.scopesAround path ++ scopes) := by
  induction path generalizing node c scopes with
  | nil =>
    cases hm
    exact h
  | cons i path ih =>
    simp only [at?, scopingAlong, scopesAround] at hm ⊢
    -- One step along the path, and the rest of it from the part.
    cases hpart : node.children[i]? with
    | none =>
      rw [hpart] at hm
      cases hm
    | some part =>
      rw [hpart] at hm
      simp only [List.append_assoc]
      exact ih (knows_part h hworded hbody hpart) (hworded.below hpart) (ne_body hpart) hm

/-! ## What resolving comes to -/

/-- Every argument of a call is come to. -/
theorem comesTo_argument {xs : List (Expr Unit)} {p : Place} {x : Expr Unit} (hx : x ∈ xs) :
    Visit.ComesTo ⟨p, .arguments xs⟩ ⟨p, .expression x⟩ := by
  induction xs with
  | nil => cases hx
  | cons y xs ih =>
    rcases List.mem_cons.1 hx with rfl | hx
    · exact .single List.mem_cons_self
    · exact .head (.tail _ (.head _)) (ih hx)

/-- Every method of a class is come to. -/
theorem comesTo_method {ms : List (Name × Routine Unit)} {p : Place} {m : Name × Routine Unit}
    (hm : m ∈ ms) : Visit.ComesTo ⟨p, .methods ms⟩ ⟨p, .routine (methodKind m.1) m.2⟩ := by
  induction ms with
  | nil => cases hm
  | cons m' ms ih =>
    rcases List.mem_cons.1 hm with rfl | hm
    · exact .single List.mem_cons_self
    · exact .head (.tail _ (.head _)) (ih hm)

/-- Statements are not all come to in the same place: each of them may declare for those after it. -/
theorem exists_comesTo_statement {ss : List (Stmt Unit)} (p : Place) {s : Stmt Unit} (hs : s ∈ ss) :
    ∃ p', Visit.ComesTo ⟨p, .body ss⟩ ⟨p', .statement s⟩ := by
  induction ss generalizing p with
  | nil => cases hs
  | cons t ss ih =>
    rcases List.mem_cons.1 hs with rfl | hs
    · exact ⟨p, .single List.mem_cons_self⟩
    · obtain ⟨p', hp'⟩ := ih (p.after t) hs
      exact ⟨p', .head (.tail _ (.head _)) hp'⟩

/-- From a node resolving comes to all its parts. -/
theorem exists_comesTo (p : Place) (hpart : part ∈ node.children) :
    ∃ p', Visit.ComesTo ⟨p, node⟩ ⟨p', part⟩ := by
  -- Resolving comes to a whole list of arguments, methods or statements first, and to its items from
  -- there; along a path the items are parts of the node itself.
  cases node with
  | expression x =>
    cases x with
    | literal v | «variable» n m | this line m => cases hpart
    | grouping x | unary op line x | assign n m x | get x n | lambda r =>
      cases List.mem_singleton.1 hpart
      exact ⟨_, .single (.head _)⟩
    | binary op line x y | logical op x y =>
      rcases List.mem_pair.1 hpart with rfl | rfl
      · exact ⟨_, .single (.head _)⟩
      · exact ⟨_, .single (.tail _ (.head _))⟩
    | set x n y =>
      rcases List.mem_pair.1 hpart with rfl | rfl
      · exact ⟨_, .single (.tail _ (.head _))⟩
      · exact ⟨_, .single (.head _)⟩
    | call x line xs =>
      rcases List.mem_cons.1 hpart with rfl | hpart
      · exact ⟨_, .single (.head _)⟩
      · obtain ⟨y, hy, rfl⟩ := List.mem_map.1 hpart
        exact ⟨_, .head (.tail _ (.head _)) (comesTo_argument hy)⟩
  | arguments xs =>
    obtain ⟨y, hy, rfl⟩ := List.mem_map.1 hpart
    exact ⟨p, comesTo_argument hy⟩
  | statement s =>
    cases s with
    | expression x | print x | function n r =>
      cases List.mem_singleton.1 hpart
      exact ⟨_, .single (.head _)⟩
    | var n x | «return» line x =>
      cases x with
      | none => cases hpart
      | some x =>
        cases List.mem_singleton.1 hpart
        exact ⟨_, .single (.head _)⟩
    | block ss =>
      obtain ⟨s, hs, rfl⟩ := List.mem_map.1 hpart
      exact (exists_comesTo_statement _ hs).imp fun _ => .head (.head _)
    | branch x s s' =>
      cases s' with
      | none =>
        rcases List.mem_pair.1 hpart with rfl | rfl
        · exact ⟨_, .single (.head _)⟩
        · exact ⟨_, .single (.tail _ (.head _))⟩
      | some s' =>
        simp only [children, List.mem_cons, List.not_mem_nil, or_false] at hpart
        rcases hpart with rfl | rfl | rfl
        · exact ⟨_, .single (.head _)⟩
        · exact ⟨_, .single (.tail _ (.head _))⟩
        · exact ⟨_, .single (.tail _ (.tail _ (.head _)))⟩
    | «while» x s =>
      rcases List.mem_pair.1 hpart with rfl | rfl
      · exact ⟨_, .single (.head _)⟩
      · exact ⟨_, .single (.tail _ (.head _))⟩
    | «class» n ms =>
      obtain ⟨m, hm, rfl⟩ := List.mem_map.1 hpart
      exact ⟨_, .head (.head _) (comesTo_method hm)⟩
  | body ss =>
    obtain ⟨s, hs, rfl⟩ := List.mem_map.1 hpart
    exact exists_comesTo_statement p hs
  | routine kind r =>
    obtain ⟨s, hs, rfl⟩ := List.mem_map.1 hpart
    exact (exists_comesTo_statement _ hs).imp fun _ => .head (.head _)
  | methods ms =>
    obtain ⟨m, hm, rfl⟩ := List.mem_map.1 hpart
    exact ⟨p, comesTo_method hm⟩

/-! ## Worded programs -/

/-- Names that are written wherever resolving comes are written wherever a path leads. -/
theorem wordedThroughout_of_allWorded {p : Place} (h : AllWorded ⟨p, node⟩) :
    node.WordedThroughout := by
  intro path m hm
  induction path generalizing p node with
  | nil =>
    cases hm
    exact h _ .refl
  | cons i path ih =>
    simp only [at?] at hm
    -- Resolving comes to the part, and from there to wherever the path leads.
    cases hpart : node.children[i]? with
    | none =>
      rw [hpart] at hm
      cases hm
    | some part =>
      rw [hpart] at hm
      obtain ⟨p', hp'⟩ := exists_comesTo p (List.mem_of_getElem? hpart)
      exact ih (fun w hw => h w (hp'.to_reflTransGen.trans hw)) hm

/-! ## Distances -/

/-- Resolving keeps the name that a node uses. -/
theorem used?_resolve (c : Scoping) (node : Node Unit) : (node.resolve c).value.used? = node.used? := by
  cases node with
  | expression x =>
    cases x with
    | this line m =>
      simp only [resolve, Expr.resolve]
      split <;> rfl
    | _ => rfl
  | _ => rfl

/-- A name that a node uses is found in the innermost scope that is known to hold it. -/
theorem distance?_resolve (h : (node.settled c).Knows scopes) : (node.resolve c).value.distance? =
    node.used?.bind fun n => scopes.findIdx? (n ∈ ·) := by
  cases node with
  | expression x =>
    have hknows : c.Knows scopes := h
    cases x with
    | «variable» n m =>
      show distance? (.expression (.variable n (c.address n.text))) = scopes.findIdx? (n.text ∈ ·)
      rw [hknows.address n.text]
      cases scopes.findIdx? (n.text ∈ ·) <;> rfl
    | assign n m x =>
      show distance? (.expression (.assign n (c.address n.text) (x.resolve c.inside).value)) =
        scopes.findIdx? (n.text ∈ ·)
      rw [hknows.address n.text]
      cases scopes.findIdx? (n.text ∈ ·) <;> rfl
    | this line m =>
      simp only [resolve, Expr.resolve, used?, Option.bind_some]
      split
      · show distance? (.expression (.this line (c.address thisName))) = _
        rw [hknows.address thisName]
        cases scopes.findIdx? (thisName ∈ ·) <;> rfl
      -- Outside of every class no scope holds the receiver's name.
      · next hclass =>
        have hnone : scopes.findIdx? (thisName ∈ ·) = none := by
          rw [List.findIdx?_eq_none_iff]
          intro names hnames
          exact decide_eq_false fun hthis => hclass (hknows.inClass.2 ⟨names, hnames, hthis⟩)
        rw [hnone]
        rfl
    | _ => rfl
  | _ => rfl

/-- Statements outside of all scopes leave no trace. -/
theorem foldl_after_outermost (maxDepth : Nat) (ss : List (Stmt Unit)) :
    ss.foldl Scoping.after (.outermost maxDepth) = .outermost maxDepth := by
  induction ss with
  | nil => rfl
  | cons s ss ih => rw [List.foldl_cons, Scoping.after_outermost, ih]

/-- What is known at the node at a path of a program is what the path tells. -/
theorem knows_program {program : List (Stmt Unit)} (hworded : (body program).WordedThroughout)
    (maxDepth : Nat) {path : List Nat} {m : Node Unit} (hm : (body program).at? path = some m) :
    (m.settled ((body program).scopingAlong (.outermost maxDepth) path)).Knows
      ((body program).scopesAround path) := by
  have hstart : (Scoping.outermost maxDepth).Knows [] := ⟨.nil, by simp [Scoping.outermost]⟩
  -- The first step leads out of the list of the whole program, which opens no scope and keeps none of
  -- its declarations; the others are those of a tree.
  cases path with
  | nil =>
    cases hm
    exact hstart
  | cons i path =>
    simp only [at?, scopingAlong, scopesAround] at hm ⊢
    cases hpart : (body program).children[i]? with
    | none =>
      rw [hpart] at hm
      cases hm
    | some part =>
      rw [hpart] at hm
      obtain ⟨s, -, rfl⟩ := List.mem_map.1 (List.mem_of_getElem? hpart)
      simp only [scopingAt, foldl_after_outermost]
      have hsettled : (Node.statement s).settled (.outermost maxDepth) = .outermost maxDepth :=
        Scoping.after_outermost maxDepth s
      refine knows_along ?_ (hworded.below hpart) (ne_body hpart) hm
      rw [hsettled]
      exact hstart

end Node

/-- Programs are resolved one after the other. -/
theorem resolveProgram_append (maxDepth : Nat) (p q : List (Stmt Unit)) :
    (resolveProgram maxDepth (p ++ q)).value =
        (resolveProgram maxDepth p).value ++ (resolveProgram maxDepth q).value ∧
      (resolveProgram maxDepth (p ++ q)).findings =
        (resolveProgram maxDepth p).findings ++ (resolveProgram maxDepth q).findings := by
  unfold resolveProgram
  induction p with
  | nil => exact ⟨rfl, rfl⟩
  -- The outermost place does not remember declarations, so every statement is resolved at it.
  | cons s p ih =>
    obtain ⟨hvalue, hfindings⟩ := ih
    rw [List.cons_append, Stmt.resolveList, Stmt.resolveList, Scoping.after_outermost]
    simp only [Resolved.value_bind, Resolved.findings_bind, Resolved.value_pure,
      Resolved.findings_pure, List.append_nil]
    rw [hvalue, hfindings, List.append_assoc]
    exact ⟨rfl, rfl⟩

/-- Resolving finds the names of a program at their lexical addresses, whether it reports errors or not:
a use of a name is in the table of local names if and only if a block, a routine or a class around it
declares the name before it, and then the distance is the number of scopes between the use and the
innermost of these. Nothing else is in the table. -/
theorem resolveProgram_distances {depth : Nat} {text : String} {line : Int}
    {program : List (Stmt Unit)}
    (h : (parseProgram depth (Scan.ofText text line).tokens).outcome = .ok program) (maxDepth : Nat)
    (path : List Nat) :
    ((Node.body (resolveProgram maxDepth program).value).at? path).map
        (fun node => (node.used?, node.distance?)) =
      ((Node.body program).at? path).map
        fun node => (node.used?, (Node.body program).lexicalDistance? path node) := by
  have hworded := Node.wordedThroughout_of_allWorded
    (Grammar.parseProgram_worded h (.outermost maxDepth))
  have hresolved : Node.body (resolveProgram maxDepth program).value =
      ((Node.body program).resolve (.outermost maxDepth)).value := rfl
  -- The node at the path, resolved, knows as many scopes around it as the path goes through.
  rw [hresolved, Node.at?_resolve, Option.map_map]
  cases hm : (Node.body program).at? path with
  | none => rfl
  | some m =>
    have hknows := Node.knows_program hworded maxDepth hm
    show some (_, _) = some (_, _)
    rw [Node.used?_resolve, Node.distance?_resolve hknows]
    rfl

/-- A function in a block that uses itself. -/
theorem resolveProgram_distances_recursion :
    (parseProgram 300 (Scan.ofText "\x7bfn f()\x7bf;\x7d\x7d" 1).tokens).outcome = .ok
        [.block [.function ⟨"f", 1⟩ ⟨[], [.expression (.variable ⟨"f", 1⟩ ())]⟩]] ∧
      ((Node.body (resolveProgram 300
        [.block [.function ⟨"f", 1⟩ ⟨[], [.expression (.variable ⟨"f", 1⟩ ())]⟩]]).value).at?
          [0, 0, 0, 0, 0]).map (fun node => (node.used?, node.distance?)) =
        some (some "f", some 1) := by
  -- The text holds a function that is used in its own body, one scope further in.
  have htokens : (Scan.ofText "\x7bfn f()\x7bf;\x7d\x7d" 1).tokens =
      [Grammar.sym .leftBrace 1, Grammar.word .fn 1, Grammar.ident ⟨"f", 1⟩,
        Grammar.sym .leftParen 1, Grammar.sym .rightParen 1, Grammar.sym .leftBrace 1,
        Grammar.ident ⟨"f", 1⟩, Grammar.sym .semicolon 1, Grammar.sym .rightBrace 1,
        Grammar.sym .rightBrace 1] := by decide +kernel
  have hroutine : Grammar.Derives true 299 .routine
      [Grammar.sym .leftParen 1, Grammar.sym .rightParen 1, Grammar.sym .leftBrace 1,
        Grammar.ident ⟨"f", 1⟩, Grammar.sym .semicolon 1, Grammar.sym .rightBrace 1]
      (.mk [] [.expression (.variable ⟨"f", 1⟩ ())]) :=
    .routine (d := 298) .none
      (.declarations (.statement (.expression (.variable _))) .noDeclaration)
  have h : (parseProgram 300 (Scan.ofText "\x7bfn f()\x7bf;\x7d\x7d" 1).tokens).outcome = .ok
      [.block [.function ⟨"f", 1⟩ ⟨[], [.expression (.variable ⟨"f", 1⟩ ())]⟩]] := by
    rw [htokens]
    exact congrArg Parsed.outcome (Grammar.reads_of_derives (.declarations (.statement (.block (d := 299)
      (.declarations (.function (n := ⟨"f", 1⟩) hroutine) .noDeclaration))) .noDeclaration))
  exact ⟨h, (resolveProgram_distances h 300 [0, 0, 0, 0, 0]).trans (by decide +kernel)⟩

end Treewalk
