import Treewalk.Scope.Resolve
import Treewalk.Proofs.Token.Word
import Mathlib.Data.List.Forall2
import Mathlib.Logic.Relation
import Mathlib.Tactic.Tauto

/-!
# Places of a program

Resolving comes to every part of a program at a place: with the scopes around the part, each of which
was opened by a block, a routine or a class. `Visit.parts` lists what resolving comes to next from
there, and `Visit.findings_eq` says that it finds nothing anywhere else. A `Visit.Reaches` another if
resolving it comes to the other.

A visit is `Sound` if nothing is wrong there and the scopes around it hold no names but those that
what opened them declares. Resolving an accepted program makes only sound visits (`Sound.reaches`).
-/

namespace Treewalk

/-! ## Declared names -/

/-- The name that a statement adds to the innermost scope, if it is a declaration. -/
def Stmt.declared {ρ : Type} : Stmt ρ → List String
  | .var name _ | .function name _ | .class name _ => [name.text]
  | _ => []

/-- What opens a scope, and what is known at its place. A class opens one for the name of the
receiver. -/
inductive Opener where
  | block (c : Scoping) (body : List (Stmt Unit))
  | routine (c : Scoping) (kind : RoutineKind) (r : Routine Unit)
  | receiver (c : Scoping) (methods : List (Name × Routine Unit))

/-- All names that are ever declared in a scope. -/
def Opener.declared : Opener → List String
  | .block _ body => body.flatMap Stmt.declared
  | .routine _ _ r => r.parameters.map Name.text ++ r.body.flatMap Stmt.declared
  | .receiver _ _ => [thisName]

/-- The kind of the routine that opens a scope. -/
def Opener.kind? : Opener → Option RoutineKind
  | .routine _ kind _ => some kind
  | _ => none

/-- The receiver's name is a keyword. -/
theorem not_isName_thisName : ¬IsName thisName := by decide

/-- A written name is never the receiver's, which is a keyword of its own. -/
theorem IsName.ne_thisName {n : String} (h : IsName n) : n ≠ thisName := by
  rintro rfl
  exact not_isName_thisName h

/-! ## Visits -/

/-- A part of a program that is resolved, or run, as one. -/
inductive Node (ρ : Type) where
  | expression (x : Expr ρ)
  | arguments (xs : List (Expr ρ))
  | statement (s : Stmt ρ)
  | body (ss : List (Stmt ρ))
  | routine (kind : RoutineKind) (r : Routine ρ)
  | methods (ms : List (Name × Routine ρ))

namespace Node

/-- Marks the names of a part of a program. -/
def resolve (c : Scoping) : Node Unit → Resolved (Node Address)
  | expression x => do return .expression (← x.resolve c)
  | arguments xs => do return .arguments (← Expr.resolveList c xs)
  | statement s => do return .statement (← s.resolve c)
  | body ss => do return .body (← Stmt.resolveList c ss)
  | routine kind r => do return .routine kind (← r.resolve c kind)
  | methods ms => do return .methods (← Routine.resolveMethods c ms)

/-- The names that a part of a program adds to the innermost scope. -/
def declared {ρ : Type} : Node ρ → List String
  | statement s => s.declared
  | body ss => ss.flatMap Stmt.declared
  | _ => []

/-- The names that stand in a part of a program itself. -/
def names {ρ : Type} : Node ρ → List String
  | expression (.variable n _) | expression (.assign n _ _) | expression (.get _ n)
  | expression (.set _ n _) => [n.text]
  | expression _ | arguments _ => []
  | statement s => s.declared
  | body ss => ss.flatMap Stmt.declared
  | routine _ r => r.parameters.map Name.text
  | methods ms => ms.map fun m => m.1.text

/-- No declaration stands alone in a branch of a conditional or in a loop. -/
def Nested {ρ : Type} : Node ρ → Prop
  | statement (.branch _ onTrue onFalse) => onTrue.declared = [] ∧ ∀ s ∈ onFalse, s.declared = []
  | statement (.while _ s) => s.declared = []
  | _ => True

/-- What the grammar says of a part of a program: what stands where a name does is one, and
declarations stand in bodies only. -/
structure Worded (node : Node Unit) : Prop where
  names : ∀ n ∈ node.names, IsName n
  nested : node.Nested

/-- Declared names occur. -/
theorem declared_subset_names {ρ : Type} (node : Node ρ) : node.declared ⊆ node.names := by
  intro n hn
  cases node with
  | statement s | body ss => exact hn
  | _ => cases hn

/-- A part whose names are written does not declare the receiver. -/
theorem Worded.not_declared {node : Node Unit} (h : node.Worded) : thisName ∉ node.declared :=
  fun hn => not_isName_thisName (h.names _ (node.declared_subset_names hn))

end Node

/-- Where resolving is: what is known there, and what opened each of the scopes. -/
structure Place where
  scoping : Scoping
  openers : List Opener

namespace Place

/-- The outermost code of a program. -/
def outermost (maxDepth : Nat) : Place := ⟨.outermost maxDepth, []⟩

/-- The place of the parts of a node. -/
def inside (p : Place) : Place := { p with scoping := p.scoping.inside }

/-- The place after the state of a name is set in the innermost scope. -/
def put (p : Place) (name : String) (ready : Bool) : Place :=
  { p with scoping := p.scoping.put name ready }

/-- The place after a statement. -/
def after (p : Place) (s : Stmt Unit) : Place := { p with scoping := p.scoping.after s }

/-- The place in a block. -/
def inBlock (p : Place) (body : List (Stmt Unit)) : Place :=
  ⟨p.scoping.inside.push [], .block p.scoping body :: p.openers⟩

/-- The place in a routine. -/
def inRoutine (p : Place) (kind : RoutineKind) (r : Routine Unit) : Place :=
  ⟨p.scoping.inRoutine kind r.parameters, .routine p.scoping kind r :: p.openers⟩

/-- The place of the methods of a class. -/
def inClassBody (p : Place) (ms : List (Name × Routine Unit)) : Place :=
  ⟨p.scoping.inClassBody, .receiver p.scoping.inClassBody ms :: p.openers⟩

end Place

/-- One step of resolving: a node at its place. -/
structure Visit where
  place : Place
  node : Node Unit

namespace Visit

/-- The node of a visit with its names marked. -/
def resolved (v : Visit) : Node Address := (v.node.resolve v.place.scoping).value

/-- What resolving a node finds. -/
def findings (v : Visit) : List Finding := (v.node.resolve v.place.scoping).findings

/-- What resolving comes to next, in order. -/
def parts : Visit → List Visit
  | ⟨p, .expression x⟩ =>
    match x with
    | .literal _ | .variable _ _ | .this _ _ => []
    | .grouping x | .unary _ _ x | .assign _ _ x | .get x _ => [⟨p.inside, .expression x⟩]
    | .binary _ _ x y | .logical _ x y | .set y _ x =>
      [⟨p.inside, .expression x⟩, ⟨p.inside, .expression y⟩]
    | .call x _ xs => [⟨p.inside, .expression x⟩, ⟨p.inside, .arguments xs⟩]
    | .lambda r => [⟨p.inside, .routine .function r⟩]
  | ⟨_, .arguments []⟩ => []
  | ⟨p, .arguments (x :: xs)⟩ => [⟨p, .expression x⟩, ⟨p, .arguments xs⟩]
  | ⟨p, .statement s⟩ =>
    match s with
    | .expression x | .print x | .return _ (some x) => [⟨p.inside, .expression x⟩]
    | .var n (some x) => [⟨(p.put n.text false).inside, .expression x⟩]
    | .var _ none | .return _ none => []
    | .block ss => [⟨p.inBlock ss, .body ss⟩]
    | .branch x s none | .while x s => [⟨p.inside, .expression x⟩, ⟨p.inside, .statement s⟩]
    | .branch x s (some s') =>
      [⟨p.inside, .expression x⟩, ⟨p.inside, .statement s⟩, ⟨p.inside, .statement s'⟩]
    | .function n r => [⟨(p.put n.text true).inside, .routine .function r⟩]
    | .class n ms => [⟨(p.put n.text true).inside.inClassBody ms, .methods ms⟩]
  | ⟨_, .body []⟩ => []
  | ⟨p, .body (s :: ss)⟩ => [⟨p, .statement s⟩, ⟨p.after s, .body ss⟩]
  | ⟨p, .routine kind r⟩ => [⟨p.inRoutine kind r, .body r.body⟩]
  | ⟨_, .methods []⟩ => []
  | ⟨p, .methods ((n, r) :: ms)⟩ => [⟨p, .routine (methodKind n) r⟩, ⟨p, .methods ms⟩]

/-- What a visit finds by itself. -/
def ownFindings : Visit → List Finding
  | ⟨p, .expression x⟩ =>
    p.scoping.depthFindings ++
      match x with
      | .variable n _ => p.scoping.ownInitializers n
      | .this line _ => if p.scoping.inClass then [] else [.misuse ⟨thisName, line⟩ .thisOutside]
      | _ => []
  | ⟨p, .statement s⟩ =>
    p.scoping.depthFindings ++
      match s with
      | .var n _ | .function n _ | .class n _ => p.scoping.redeclarations n
      | .return line value => p.scoping.returnMisuses line value.isSome
      | _ => []
  | ⟨p, .routine _ r⟩ => (p.scoping.push []).parameterRedeclarations r.parameters
  | _ => []

/-- Resolving finds what its visits find by themselves, and nothing else. -/
theorem findings_eq (v : Visit) : v.findings = v.ownFindings ++ v.parts.flatMap findings := by
  obtain ⟨p, node⟩ := v
  -- Case by case, resolving a node reports its own findings, and then those of its parts in their order.
  cases node with
  | expression x =>
    cases x with
    | this line m =>
      simp only [findings, Node.resolve, Expr.resolve, ownFindings, parts]
      split <;> simp
    | _ => simp [findings, Node.resolve, Expr.resolve, ownFindings, parts, Place.inside]
  | arguments xs =>
    cases xs with
    | nil => simp [findings, Node.resolve, Expr.resolveList, ownFindings, parts]
    | cons x xs => simp [findings, Node.resolve, Expr.resolveList, ownFindings, parts]
  | statement s =>
    cases s with
    | var n x =>
      cases x <;> simp [findings, Node.resolve, Stmt.resolve, Expr.resolveOption, ownFindings, parts,
        Place.inside, Place.put, Scoping.declare]
    | branch x s s' =>
      cases s' <;> simp [findings, Node.resolve, Stmt.resolve, Stmt.resolveOption, ownFindings,
        parts, Place.inside]
    | «return» line x =>
      cases x <;> simp [findings, Node.resolve, Stmt.resolve, Expr.resolveOption, ownFindings, parts,
        Place.inside]
    | _ =>
      simp [findings, Node.resolve, Stmt.resolve, ownFindings, parts, Place.inside, Place.put,
        Place.inBlock, Place.inClassBody, Scoping.define]
  | body ss =>
    cases ss with
    | nil => simp [findings, Node.resolve, Stmt.resolveList, ownFindings, parts]
    | cons s ss =>
      simp [findings, Node.resolve, Stmt.resolveList, ownFindings, parts, Place.after]
  | routine kind r =>
    cases r with
    | mk parameters body =>
      simp [findings, Node.resolve, Routine.resolve, ownFindings, parts, Place.inRoutine,
        Routine.parameters, Routine.body]
  | methods ms =>
    cases ms with
    | nil => simp [findings, Node.resolve, Routine.resolveMethods, ownFindings, parts]
    | cons m ms => simp [findings, Node.resolve, Routine.resolveMethods, ownFindings, parts]

/-- Resolving one node comes to another. -/
abbrev Reaches : Visit → Visit → Prop := Relation.ReflTransGen fun v w => w ∈ v.parts

/-- Resolving one node comes to another, in one step or more. -/
abbrev ComesTo : Visit → Visit → Prop := Relation.TransGen fun v w => w ∈ v.parts

/-- How a part of a node stands to it: most parts stand in the same scopes as the node, a declaration puts
its name before its part, and blocks, routines and classes open a scope for theirs. -/
inductive PartOf (p : Place) : Node Unit → Visit → Prop
  /-- Neither the node declares anything here nor, where declarations stand in bodies only, the part. -/
  | within {node part : Node Unit} {q : Place} (hq : q = p ∨ q = p.inside) (hnode : node.declared = [])
    (hpart : node.Nested → part.declared = []) : PartOf p node ⟨q, part⟩
  | initializer {n : Name} {x : Expr Unit} :
    PartOf p (.statement (.var n (some x))) ⟨(p.put n.text false).inside, .expression x⟩
  | function {n : Name} {r : Routine Unit} :
    PartOf p (.statement (.function n r)) ⟨(p.put n.text true).inside, .routine .function r⟩
  | methods {n : Name} {ms : List (Name × Routine Unit)} :
    PartOf p (.statement (.class n ms)) ⟨(p.put n.text true).inside.inClassBody ms, .methods ms⟩
  | block {ss : List (Stmt Unit)} : PartOf p (.statement (.block ss)) ⟨p.inBlock ss, .body ss⟩
  | body {kind : RoutineKind} {r : Routine Unit} :
    PartOf p (.routine kind r) ⟨p.inRoutine kind r, .body r.body⟩
  | statement {s : Stmt Unit} {ss : List (Stmt Unit)} : PartOf p (.body (s :: ss)) ⟨p, .statement s⟩
  | later {s : Stmt Unit} {ss : List (Stmt Unit)} : PartOf p (.body (s :: ss)) ⟨p.after s, .body ss⟩

/-- Every part that resolving comes to from a node stands to it as one of these rules says. -/
theorem partOf_of_mem {v w : Visit} (hw : w ∈ v.parts) : PartOf v.place v.node w := by
  obtain ⟨p, node⟩ := v
  cases node with
  | expression x =>
    cases x <;> simp only [parts, List.mem_cons, List.not_mem_nil, or_false] at hw
    -- Expressions open no scopes and declare nothing, so their parts are at the same place, further in.
    all_goals obtain rfl | rfl := hw <;> exact .within (.inr rfl) rfl fun _ => rfl
  | arguments xs =>
    cases xs <;> simp only [parts, List.mem_cons, List.not_mem_nil, or_false] at hw
    obtain rfl | rfl := hw <;> exact .within (.inl rfl) rfl fun _ => rfl
  | statement s =>
    cases s with
    | expression x | print x =>
      cases List.mem_singleton.1 hw
      exact .within (.inr rfl) rfl fun _ => rfl
    | var n x =>
      cases x <;> simp only [parts, List.mem_cons, List.not_mem_nil, or_false] at hw
      obtain rfl := hw
      exact .initializer
    | block ss =>
      cases List.mem_singleton.1 hw
      exact .block
    | branch x s s' =>
      cases s' <;> simp only [parts, List.mem_cons, List.not_mem_nil, or_false] at hw
      · obtain rfl | rfl := hw
        · exact .within (.inr rfl) rfl fun _ => rfl
        -- A branch stands alone, and so it declares nothing if the node is nested.
        · exact .within (.inr rfl) rfl fun hnested => hnested.1
      · obtain rfl | rfl | rfl := hw
        · exact .within (.inr rfl) rfl fun _ => rfl
        · exact .within (.inr rfl) rfl fun hnested => hnested.1
        · exact .within (.inr rfl) rfl fun hnested => hnested.2 _ rfl
    | «while» x s =>
      simp only [parts, List.mem_cons, List.not_mem_nil, or_false] at hw
      obtain rfl | rfl := hw
      · exact .within (.inr rfl) rfl fun _ => rfl
      · exact .within (.inr rfl) rfl fun hnested => hnested
    | function n r =>
      cases List.mem_singleton.1 hw
      exact .function
    | «return» line x =>
      cases x <;> simp only [parts, List.mem_cons, List.not_mem_nil, or_false] at hw
      obtain rfl := hw
      exact .within (.inr rfl) rfl fun _ => rfl
    | «class» n ms =>
      cases List.mem_singleton.1 hw
      exact .methods
  | body ss =>
    cases ss <;> simp only [parts, List.mem_cons, List.not_mem_nil, or_false] at hw
    -- The first statement is at the same place, the others after its name was declared.
    obtain rfl | rfl := hw
    · exact .statement
    · exact .later
  | routine kind r =>
    cases List.mem_singleton.1 hw
    exact .body
  | methods ms =>
    cases ms <;> simp only [parts, List.mem_cons, List.not_mem_nil, or_false] at hw
    obtain rfl | rfl := hw <;> exact .within (.inl rfl) rfl fun _ => rfl

/-- The scopes around a node are around its parts as well. -/
theorem openers_of_part {v w : Visit} (hw : w ∈ v.parts) : v.place.openers <:+ w.place.openers := by
  obtain ⟨p, node⟩ := v
  cases partOf_of_mem hw with
  | within hq => obtain rfl | rfl := hq <;> exact List.suffix_rfl
  | initializer | function | statement | later => exact List.suffix_rfl
  | methods | block | body => exact List.suffix_cons _ _

/-- Going inwards adds scopes in front of those that are open. -/
theorem Reaches.openers {v w : Visit} (h : v.Reaches w) : v.place.openers <:+ w.place.openers := by
  induction h with
  | refl => exact List.suffix_rfl
  | tail _ hw ih => exact ih.trans (openers_of_part hw)

/-- What holds of all that a visit reaches holds of it and of all that its parts reach. -/
theorem forall_reaches_iff {v : Visit} {P : Visit → Prop} :
    (∀ w, v.Reaches w → P w) ↔ P v ∧ ∀ u ∈ v.parts, ∀ w, u.Reaches w → P w := by
  constructor
  · exact fun h => ⟨h v .refl, fun u hu w hw => h w (.head hu hw)⟩
  · rintro ⟨hv, hparts⟩ w hw
    rcases Relation.ReflTransGen.cases_head hw with rfl | ⟨u, hu, hw⟩
    · exact hv
    · exact hparts u hu w hw

/-- Whether a test is passed by all that a visit reaches. This is found out by going to the parts again
and again; the answer is no if that is not over after the given number of rounds. -/
def everywhere (test : Visit → Bool) : Nat → Visit → Bool
  | 0, _ => false
  | rounds + 1, v => test v && v.parts.all (everywhere test rounds)

/-- The answer is never a wrong yes. -/
theorem of_everywhere {test : Visit → Bool} {rounds : Nat} {v : Visit}
    (h : everywhere test rounds v = true) : ∀ w, v.Reaches w → test w = true := by
  induction rounds generalizing v with
  | zero => cases h
  | succ rounds ih =>
    obtain ⟨hv, hparts⟩ := Bool.and_eq_true_iff.1 h
    exact forall_reaches_iff.2 ⟨hv, fun u hu => ih (List.all_eq_true.1 hparts u hu)⟩

/-- A name is read or assigned in a node. -/
def Mentions (v : Visit) (n : String) : Prop :=
  ∃ w, v.Reaches w ∧
    match w.node with
    | .expression (.variable m _) | .expression (.assign m _ _) => m.text = n
    | _ => False

/-- A name is used in a node. The receiver's name counts as used everywhere. -/
def Uses (v : Visit) (n : String) : Prop := n = thisName ∨ v.Mentions n

variable {v w : Visit} {n : String}

/-- What occurs in a part occurs in the whole. -/
theorem Mentions.of_reaches (h : w.Mentions n) (hvw : v.Reaches w) : v.Mentions n := by
  obtain ⟨u, hwu, hu⟩ := h
  exact ⟨u, hvw.trans hwu, hu⟩

/-- What a part uses, the whole uses. -/
theorem Uses.of_part (h : w.Uses n) (hw : w ∈ v.parts) : v.Uses n :=
  h.imp_right fun h => h.of_reaches (.single hw)

end Visit

/-- The receiver is resolved as a name is, inside a class. -/
theorem Expr.resolve_this (c : Scoping) (line : Int) (mark : Unit) :
    ((Expr.this line mark).resolve c).value =
      .this line (if c.inClass = true then c.address thisName else .global) := by
  rw [Expr.resolve]
  split <;> simp_all

/-- Only a variable is resolved to a variable. -/
theorem Expr.resolve_eq_variable {c : Scoping} {u : Expr Unit} {n : Name} {a : Address}
    (h : (u.resolve c).value = .variable n a) : ∃ mark, u = .variable n mark ∧ a = c.address n.text := by
  cases u with
  | «variable» m mark =>
    cases h
    exact ⟨mark, rfl, rfl⟩
  | this line mark =>
    rw [Expr.resolve_this] at h
    cases h
  | _ => cases h

/-- Only the receiver is resolved to the receiver, and inside a class it is a name like others. -/
theorem Expr.resolve_eq_this {c : Scoping} {u : Expr Unit} {line : Int} {a : Address}
    (h : (u.resolve c).value = .this line a) :
    ∃ mark, u = .this line mark ∧ (c.inClass = true → a = c.address thisName) := by
  cases u with
  | this line' mark =>
    rw [Expr.resolve_this] at h
    cases h
    exact ⟨mark, rfl, fun hclass => if_pos hclass⟩
  | _ => cases h

/-- Only an assignment is resolved to an assignment. -/
theorem Expr.resolve_eq_assign {c : Scoping} {u : Expr Unit} {n : Name} {a : Address}
    {x : Expr Address} (h : (u.resolve c).value = .assign n a x) :
    ∃ m mark y, u = .assign m mark y ∧ n = m ∧ a = c.address m.text ∧
      x = (Expr.resolve c.inside y).value := by
  cases u with
  | assign m mark y =>
    cases h
    exact ⟨n, mark, y, rfl, rfl, rfl, rfl⟩
  | this line mark =>
    rw [Expr.resolve_this] at h
    cases h
  | _ => cases h

/-- Only a lambda is resolved to a lambda. -/
theorem Expr.resolve_eq_lambda {c : Scoping} {u : Expr Unit} {r : Routine Address}
    (h : (u.resolve c).value = .lambda r) :
    ∃ r', u = .lambda r' ∧ r = (Routine.resolve c.inside .function r').value := by
  cases u with
  | lambda r' =>
    cases h
    exact ⟨r', rfl, rfl⟩
  | this line mark =>
    rw [Expr.resolve_this] at h
    cases h
  | _ => cases h

/-- Only a declaration of a function is resolved to one. -/
theorem Stmt.resolve_eq_function {c : Scoping} {t : Stmt Unit} {n : Name} {r : Routine Address}
    (h : (t.resolve c).value = .function n r) :
    ∃ r', t = .function n r' ∧ r = (Routine.resolve (c.define n).inside .function r').value := by
  cases t with
  | function m r' =>
    cases h
    exact ⟨r', rfl, rfl⟩
  | _ => cases h

/-- Only a declaration of a class is resolved to one. -/
theorem Stmt.resolve_eq_class {c : Scoping} {t : Stmt Unit} {n : Name}
    {ms : List (Name × Routine Address)} (h : (t.resolve c).value = .class n ms) :
    ∃ ms', t = .class n ms' ∧
      ms = (Routine.resolveMethods (c.define n).inside.inClassBody ms').value := by
  cases t with
  | «class» m ms' =>
    cases h
    exact ⟨ms', rfl, rfl⟩
  | _ => cases h

/-! ## What marks leave alone -/

/-- What marks a program's names leaves its declarations alone. -/
@[simp] theorem Stmt.declared_resolve (c : Scoping) (t : Stmt Unit) :
    (t.resolve c).value.declared = t.declared := by
  cases t <;> rfl

/-- Resolving keeps the names that statements declare. -/
@[simp] theorem Stmt.declared_resolveList (c : Scoping) (ts : List (Stmt Unit)) :
    (Stmt.resolveList c ts).value.flatMap Stmt.declared = ts.flatMap Stmt.declared := by
  induction ts generalizing c with
  | nil => rfl
  | cons t ts ih => simp [Stmt.resolveList, ih]

/-- Resolving keeps the parameters. -/
@[simp] theorem Routine.parameters_resolve (c : Scoping) (kind : RoutineKind) (r : Routine Unit) :
    (r.resolve c kind).value.parameters = r.parameters := by
  cases r
  rfl

/-- The body of a resolved routine is the body, resolved with the parameters in a scope of its own. -/
theorem Routine.body_resolve (c : Scoping) (kind : RoutineKind) (r : Routine Unit) :
    (r.resolve c kind).value.body =
      (Stmt.resolveList (c.inRoutine kind r.parameters) r.body).value := by
  cases r
  rfl

/-- Resolving keeps the names of the methods. -/
@[simp] theorem Routine.names_resolveMethods (c : Scoping) (ms : List (Name × Routine Unit)) :
    (Routine.resolveMethods c ms).value.map (fun m => m.1.text) = ms.map fun m => m.1.text := by
  induction ms with
  | nil => rfl
  | cons m ms ih => simp [Routine.resolveMethods, ih]

namespace Visit

/-- The names that stand in a part of a program are not changed by marking them. -/
theorem names_resolved (v : Visit) : v.resolved.names = v.node.names := by
  obtain ⟨p, node⟩ := v
  cases node with
  | expression x =>
    cases x with
    | this line m => exact congrArg (fun x => Node.names (.expression x)) (Expr.resolve_this ..)
    | _ => rfl
  | arguments xs => rfl
  | statement t => exact t.declared_resolve _
  | body ts => exact Stmt.declared_resolveList _ ts
  | routine kind r => exact congrArg (List.map Name.text) (r.parameters_resolve _ kind)
  | methods ms => exact Routine.names_resolveMethods _ ms

/-- Declarations stand where they did before the names were marked. -/
theorem nested_resolved {v : Visit} (h : v.node.Nested) : v.resolved.Nested := by
  obtain ⟨p, node⟩ := v
  cases node with
  | statement t =>
    cases t with
    -- Only what stands alone must not declare a name, and resolving does not change what is declared.
    | branch x t f =>
      cases f with
      | none =>
        refine ⟨(t.declared_resolve _).trans h.1, fun f hf => ?_⟩
        cases hf
      | some f =>
        refine ⟨(t.declared_resolve _).trans h.1, fun f' hf => ?_⟩
        cases hf
        exact (f.declared_resolve _).trans (h.2 f rfl)
    | «while» x b => exact (b.declared_resolve _).trans h
    | _ => trivial
  | _ => trivial

end Visit

/-! ## Names in scopes -/

namespace Scope

/-- After a name is put in a scope, its entry is the new one and the others are as they were. -/
theorem mem_put {σ : Scope} {n m : String} {b ready : Bool} :
    (n, b) ∈ σ.put m ready ↔ (n = m ∧ b = ready) ∨ (n ≠ m ∧ (n, b) ∈ σ) := by
  unfold put
  simp only [List.mem_cons, Prod.mk.injEq, List.mem_filter, bne_iff_ne, ne_eq]
  exact or_congr_right and_comm

/-- A scope holds a name, ready or not. -/
theorem holds_iff {σ : Scope} {n : String} : σ.holds n = true ↔ ∃ b, (n, b) ∈ σ := by
  unfold holds
  simp only [List.any_eq_true, beq_iff_eq, Prod.exists]
  constructor
  · rintro ⟨m, b, h, rfl⟩
    exact ⟨b, h⟩
  · rintro ⟨b, h⟩
    exact ⟨n, b, h, rfl⟩

/-- Putting a name in a scope adds that name and loses none. -/
theorem holds_put {σ : Scope} {n m : String} {ready : Bool} :
    (σ.put m ready).holds n = true ↔ n = m ∨ σ.holds n = true := by
  simp only [holds_iff, mem_put]
  constructor
  · rintro ⟨b, ⟨h, -⟩ | ⟨-, h⟩⟩
    · exact .inl h
    · exact .inr ⟨b, h⟩
  · rintro (rfl | ⟨b, h⟩)
    · exact ⟨ready, .inl ⟨rfl, rfl⟩⟩
    · by_cases hn : n = m
      · exact ⟨ready, .inl ⟨hn, rfl⟩⟩
      · exact ⟨b, .inr ⟨hn, h⟩⟩

end Scope

namespace Scoping

/-- A name is looked for in the innermost scope first. -/
theorem addressFrom_cons (k : Nat) (n : String) (σ : Scope) (scopes : List Scope) :
    addressFrom k n (σ :: scopes) =
      if σ.holds n then .scope k else addressFrom (k + 1) n scopes := rfl

/-- Distances are counted from the given one. -/
theorem le_of_addressFrom {n : String} {k j : Nat} {scopes : List Scope}
    (ha : Scoping.addressFrom k n scopes = .scope j) : k ≤ j := by
  induction scopes generalizing k with
  | nil => cases ha
  | cons σ scopes ih =>
    rw [addressFrom_cons] at ha
    split at ha
    · exact Nat.le_of_eq (Address.scope.inj ha)
    · exact Nat.le_of_succ_le (ih ha)

/-- The scope in which a name is found holds it, and no scope further in does. -/
theorem addressFrom_eq_scope {n : String} {k d : Nat} {scopes : List Scope}
    (ha : Scoping.addressFrom k n scopes = .scope (k + d)) :
    ∃ σ, scopes[d]? = some σ ∧ σ.holds n = true ∧
      ∀ i < d, ∀ σ', scopes[i]? = some σ' → σ'.holds n = false := by
  induction scopes generalizing k d with
  | nil => cases ha
  | cons σ scopes ih =>
    -- The search ends in the first scope, or it goes on in the others, where they are counted from one
    -- more.
    rw [addressFrom_cons] at ha
    split at ha
    · next hσ =>
      have hd : d = 0 := by
        have := Address.scope.inj ha
        omega
      subst hd
      exact ⟨σ, rfl, hσ, fun i hi => absurd hi (Nat.not_lt_zero i)⟩
    · next hσ =>
      have hlt := le_of_addressFrom ha
      obtain ⟨d, rfl⟩ : ∃ d', d = d' + 1 := ⟨d - 1, by omega⟩
      rw [show k + (d + 1) = k + 1 + d by omega] at ha
      obtain ⟨σ', hσ', hholds, hinner⟩ := ih ha
      refine ⟨σ', hσ', hholds, fun i hi σ'' hσ'' => ?_⟩
      cases i with
      | zero =>
        obtain rfl := Option.some.inj hσ''
        exact Bool.eq_false_iff.2 hσ
      | succ i => exact hinner i (Nat.lt_of_succ_lt_succ hi) σ'' hσ''

/-- The address of a name counts the scopes that do not hold it, up to the first that does. -/
theorem address_eq_scope {c : Scoping} {n : String} {d : Nat} (ha : c.address n = .scope d) :
    ∃ σ, c.scopes[d]? = some σ ∧ σ.holds n = true ∧
      ∀ i < d, ∀ σ', c.scopes[i]? = some σ' → σ'.holds n = false := by
  refine addressFrom_eq_scope (k := 0) ?_
  rw [Nat.zero_add]
  exact ha

/-- A name that some open scope holds is not sought among the global ones. -/
theorem addressFrom_ne_global {n : String} {σ : Scope} {σs : List Scope} {k : Nat} (hσ : σ ∈ σs)
    (hn : σ.holds n = true) : Scoping.addressFrom k n σs ≠ .global := by
  induction σs generalizing k with
  | nil => cases hσ
  | cons σ' σs ih =>
    rw [addressFrom_cons]
    split
    · exact Address.noConfusion
    · next hholds =>
      rcases List.mem_cons.1 hσ with rfl | hσ
      · exact absurd hn hholds
      · exact ih hσ

/-- A name that a scope holds is not looked for among the global names. -/
theorem address_ne_global {c : Scoping} {n : String} {σ : Scope} (hσ : σ ∈ c.scopes)
    (hn : σ.holds n = true) : c.address n ≠ .global :=
  addressFrom_ne_global hσ hn

end Scoping

/-- The scope of a routine's parameters: each of them has its value. -/
def parameterScope (parameters : List Name) : Scope :=
  parameters.foldl (fun σ p => σ.put p.text true) []

/-- Parameters are put in a scope one after the other, and each is ready. -/
theorem mem_foldl_put {parameters : List Name} {σ : Scope} {n : String} {b : Bool} :
    (n, b) ∈ parameters.foldl (fun σ p => σ.put p.text true) σ ↔
      (n ∈ parameters.map Name.text ∧ b = true) ∨
        (n ∉ parameters.map Name.text ∧ (n, b) ∈ σ) := by
  induction parameters generalizing σ with
  | nil => simp
  | cons p ps ih =>
    rw [List.foldl_cons, ih, Scope.mem_put, List.map_cons, List.mem_cons]
    tauto

/-- The scope of a routine holds its parameters, ready, and nothing else. -/
theorem mem_parameterScope {parameters : List Name} {n : String} {b : Bool} :
    (n, b) ∈ parameterScope parameters ↔ n ∈ parameters.map Name.text ∧ b = true := by
  unfold parameterScope
  rw [mem_foldl_put]
  simp

/-- Declared parameters all go to the innermost scope. -/
theorem Scoping.scopes_foldl_define {ps : List Name} {c : Scoping} {σ : Scope} {σs : List Scope}
    (h : c.scopes = σ :: σs) :
    (ps.foldl define c).scopes = ps.foldl (fun σ p => σ.put p.text true) σ :: σs := by
  induction ps generalizing c σ with
  | nil => exact h
  | cons p ps ih =>
    refine ih (c := c.define p) (σ := σ.put p.text true) ?_
    unfold define put
    rw [h]

/-- In a routine there is one more scope, that of its parameters. -/
theorem Scoping.scopes_inRoutine (c : Scoping) (kind : RoutineKind) (parameters : List Name) :
    (c.inRoutine kind parameters).scopes = parameterScope parameters :: c.scopes :=
  scopes_foldl_define rfl

/-- Declaring parameters does not change which routine and class the place is in. -/
theorem Scoping.routine_foldl_define (ps : List Name) (c : Scoping) :
    (ps.foldl define c).routine = c.routine ∧ (ps.foldl define c).inClass = c.inClass := by
  induction ps generalizing c with
  | nil => exact ⟨rfl, rfl⟩
  | cons p ps ih =>
    have hdefine : (c.define p).routine = c.routine ∧ (c.define p).inClass = c.inClass := by
      unfold define put
      split <;> exact ⟨rfl, rfl⟩
    rw [List.foldl_cons, (ih _).1, (ih _).2]
    exact hdefine

/-- The parameters of a routine change nothing of what a return ends, and of whether a class is around
it. -/
theorem Scoping.routine_inRoutine (c : Scoping) (kind : RoutineKind) (parameters : List Name) :
    (c.inRoutine kind parameters).routine = some kind ∧
      (c.inRoutine kind parameters).inClass = c.inClass :=
  routine_foldl_define parameters _

/-! ## Sound visits -/

/-- A scope holds no names but those that what opened it declares. The receiver's name is that of a
class, whose scope holds it with its value. -/
structure Scope.OpenedBy (σ : Scope) (o : Opener) : Prop where
  declared : ∀ n b, (n, b) ∈ σ → n ∈ o.declared
  ready : (thisName, false) ∉ σ
  ofClass : thisName ∈ o.declared → ∃ c ms, o = .receiver c ms
  receiver : ∀ c ms, o = .receiver c ms → σ.holds thisName = true

/-- Scopes belong to what opened them, a return ends the nearest routine, and inside a class there is a
scope for the receiver. -/
structure Place.Sound (p : Place) : Prop where
  scopes : List.Forall₂ Scope.OpenedBy p.scoping.scopes p.openers
  routine : p.scoping.routine = p.openers.findSome? Opener.kind?
  inClass : p.scoping.inClass = true → ∃ c ms, Opener.receiver c ms ∈ p.openers

namespace Scope.OpenedBy

variable {σ : Scope} {o : Opener}

/-- A declaration that belongs to what opened a scope keeps the scope as it should be. -/
theorem put (h : σ.OpenedBy o) {n : String} (ready : Bool) (hn : n ≠ thisName)
    (hown : n ∈ o.declared) : (σ.put n ready).OpenedBy o := by
  refine ⟨fun m b hm => ?_, fun hm => ?_, h.ofClass, fun c ms ho => ?_⟩
  · rcases mem_put.1 hm with ⟨rfl, -⟩ | ⟨-, hm⟩
    · exact hown
    · exact h.declared m b hm
  · rcases mem_put.1 hm with ⟨heq, -⟩ | ⟨-, hm⟩
    · exact hn heq.symm
    · exact h.ready hm
  · exact holds_put.2 (.inr (h.receiver c ms ho))

/-- A scope that begins with the given names, each with its value. -/
theorem of_ready (hdeclared : ∀ n b, (n, b) ∈ σ → b = true ∧ n ∈ o.declared)
    (hthis : thisName ∉ o.declared) : σ.OpenedBy o := by
  refine ⟨fun n b hn => (hdeclared n b hn).2, fun hn => ?_, fun h => absurd h hthis, ?_⟩
  · cases (hdeclared _ _ hn).1
  · rintro c ms rfl
    exact absurd (List.mem_singleton_self _) hthis

end Scope.OpenedBy

namespace Place.Sound

variable {p : Place}

/-- A scope belongs to what opened it. -/
theorem openedBy (h : p.Sound) {i : Nat} {σ : Scope} {o : Opener}
    (hσ : p.scoping.scopes[i]? = some σ) (ho : p.openers[i]? = some o) : σ.OpenedBy o := by
  obtain ⟨hi, rfl⟩ := List.getElem?_eq_some_iff.1 hσ
  obtain ⟨hi', rfl⟩ := List.getElem?_eq_some_iff.1 ho
  exact h.scopes.get hi hi'

/-- The receiver's name always has its value. -/
theorem receiver (h : p.Sound) {σ : Scope} (hσ : σ ∈ p.scoping.scopes) : (thisName, false) ∉ σ := by
  obtain ⟨i, hi⟩ := List.mem_iff_getElem?.1 hσ
  have hlt : i < p.openers.length := h.scopes.length_eq ▸ (List.getElem?_eq_some_iff.1 hi).1
  exact (h.openedBy hi (List.getElem?_eq_getElem hlt)).ready

/-- The outermost place of a program is sound: nothing is open. -/
theorem outermost (maxDepth : Nat) : (Place.outermost maxDepth).Sound :=
  ⟨.nil, rfl, fun h => by cases h⟩

/-- One level further in nothing has changed but the depth. -/
theorem inside (h : p.Sound) : p.inside.Sound := ⟨h.scopes, h.routine, h.inClass⟩

/-- A place stays sound when one of its own names is put. -/
theorem put (h : p.Sound) {n : String} (ready : Bool) (hn : n ≠ thisName)
    (hown : ∀ o ∈ p.openers.head?, n ∈ o.declared) : (p.put n ready).Sound := by
  obtain ⟨⟨scopes, routine, inClass, depth, maxDepth⟩, openers⟩ := p
  obtain ⟨hscopes, hroutine, hclass⟩ := h
  cases hscopes with
  | nil => exact ⟨.nil, hroutine, hclass⟩
  | cons hσ hσs => exact ⟨.cons (hσ.put ready hn (hown _ rfl)) hσs, hroutine, hclass⟩

/-- A place stays sound after one of its statements, which declares a name of its own. -/
theorem after (h : p.Sound) {s : Stmt Unit} (hs : thisName ∉ s.declared)
    (hown : ∀ o ∈ p.openers.head?, ∀ n ∈ s.declared, n ∈ o.declared) : (p.after s).Sound := by
  cases s with
  | var n x | function n r | «class» n ms =>
    exact h.put true (fun he => hs (by simp [Stmt.declared, he]))
      fun o ho => hown o ho _ (by simp [Stmt.declared])
  | _ => exact h

/-- The place inside of a block is sound. -/
theorem inBlock (h : p.Sound) {body : List (Stmt Unit)}
    (hbody : thisName ∉ body.flatMap Stmt.declared) : (p.inBlock body).Sound := by
  refine ⟨.cons (.of_ready (fun n b hn => by cases hn) hbody) h.scopes, h.routine, fun hclass => ?_⟩
  obtain ⟨c, ms, ho⟩ := h.inClass hclass
  exact ⟨c, ms, List.mem_cons_of_mem _ ho⟩

/-- The place inside of a routine is sound, the parameters declared. -/
theorem inRoutine (h : p.Sound) {kind : RoutineKind} {r : Routine Unit}
    (hparameters : thisName ∉ r.parameters.map Name.text)
    (hbody : thisName ∉ r.body.flatMap Stmt.declared) : (p.inRoutine kind r).Sound := by
  have hscopes := p.scoping.scopes_inRoutine kind r.parameters
  constructor
  -- The new scope holds the parameters, which are ready, and the receiver is none of them.
  · show List.Forall₂ _ (p.scoping.inRoutine kind r.parameters).scopes _
    rw [hscopes]
    refine .cons (.of_ready (fun n b hn => ?_) fun hn => ?_) h.scopes
    · obtain ⟨hn, hb⟩ := mem_parameterScope.1 hn
      exact ⟨hb, List.mem_append_left _ hn⟩
    · exact (List.mem_append.1 hn).elim hparameters hbody
  · exact (p.scoping.routine_inRoutine kind r.parameters).1
  -- Whether a class is around the routine is asked further out.
  · intro hclass
    obtain ⟨c, ms, ho⟩ := h.inClass ((p.scoping.routine_inRoutine kind r.parameters).2 ▸ hclass)
    exact ⟨c, ms, List.mem_cons_of_mem _ ho⟩

/-- The place inside of a class is sound: its scope holds the receiver only. -/
theorem inClassBody (h : p.Sound) (ms : List (Name × Routine Unit)) : (p.inClassBody ms).Sound := by
  refine ⟨.cons ⟨fun n b hn => ?_, ?_, fun _ => ⟨_, _, rfl⟩, fun _ _ _ => rfl⟩ h.scopes, h.routine,
    fun _ => ⟨_, _, List.mem_cons_self⟩⟩
  · have hname : n = thisName := (Prod.mk.inj (List.mem_singleton.1 hn)).1
    exact List.mem_singleton.2 hname
  · simp

/-- Inside a class the receiver is found in the scope of the nearest class. -/
theorem address_this (h : p.Sound) (hclass : p.scoping.inClass = true) :
    ∃ k c ms, p.scoping.address thisName = .scope k ∧ p.openers[k]? = some (.receiver c ms) ∧
      ∀ o ∈ p.openers.take k, ∀ c ms, o ≠ .receiver c ms := by
  -- The scope that is opened by a receiver holds the name, so the innermost scope that holds it is no
  -- further out.
  have hholds : ∀ {i : Nat} {c ms}, p.openers[i]? = some (Opener.receiver c ms) →
      ∃ σ, p.scoping.scopes[i]? = some σ ∧ σ.holds thisName = true := by
    intro i c ms ho
    have hlt : i < p.scoping.scopes.length :=
      h.scopes.length_eq ▸ (List.getElem?_eq_some_iff.1 ho).1
    have hσ := List.getElem?_eq_getElem hlt
    exact ⟨_, hσ, (h.openedBy hσ ho).receiver c ms rfl⟩
  obtain ⟨c, ms, hmem⟩ := h.inClass hclass
  obtain ⟨i, hi⟩ := List.mem_iff_getElem?.1 hmem
  obtain ⟨σ, hσ, hthis⟩ := hholds hi
  cases haddress : p.scoping.address thisName with
  | global => exact absurd haddress (Scoping.address_ne_global (List.mem_of_getElem? hσ) hthis)
  | scope k =>
    obtain ⟨σ', hσ', hholds', hinner⟩ := Scoping.address_eq_scope haddress
    have hlt : k < p.openers.length := h.scopes.length_eq ▸ (List.getElem?_eq_some_iff.1 hσ').1
    have ho := List.getElem?_eq_getElem hlt
    have hopened := h.openedBy hσ' ho
    obtain ⟨ready, hready⟩ := Scope.holds_iff.1 hholds'
    obtain ⟨c', ms', hreceiver⟩ := hopened.ofClass (hopened.declared _ _ hready)
    refine ⟨k, c', ms', rfl, hreceiver ▸ ho, ?_⟩
    rintro o ho' c₀ ms₀ rfl
    obtain ⟨j, hj, hget⟩ := List.mem_take_iff_getElem.1 ho'
    obtain ⟨σ₀, hσ₀, hthis₀⟩ := hholds (List.getElem?_eq_some_iff.2 ⟨_, hget⟩)
    rw [hinner j (Nat.lt_of_lt_of_le hj (Nat.min_le_left _ _)) σ₀ hσ₀] at hthis₀
    cases hthis₀

end Place.Sound

/-- Nothing is wrong with a visit: resolving finds nothing, and the names are in order. -/
structure Visit.Sound (v : Visit) : Prop where
  accepted : v.findings = []
  worded : v.node.Worded
  place : v.place.Sound
  own : ∀ o ∈ v.place.openers.head?, ∀ n ∈ v.node.declared, n ∈ o.declared

namespace Visit.Sound

variable {v w : Visit}

/-- What a node finds by itself is among its findings, of which there are none. -/
theorem ownFindings (h : v.Sound) : v.ownFindings = [] := by
  have hfindings := h.accepted
  rw [findings_eq, List.append_eq_nil_iff] at hfindings
  exact hfindings.1

/-- The receiver is used inside a class only. -/
theorem inClass {p : Place} {line : Int} {mark : Unit}
    (h : Sound ⟨p, .expression (.this line mark)⟩) : p.scoping.inClass = true := by
  have hown : (if p.scoping.inClass then [] else [Finding.misuse ⟨thisName, line⟩ .thisOutside]) = [] :=
    (List.append_eq_nil_iff.1 h.ownFindings).2
  by_contra hclass
  rw [if_neg hclass] at hown
  cases hown

/-- What resolving comes to next is sound as well. -/
theorem part (h : v.Sound) (hw : w ∈ v.parts) (hworded : w.node.Worded) : w.Sound := by
  have haccepted : w.findings = [] := by
    have hfindings := h.accepted
    rw [findings_eq, List.append_eq_nil_iff] at hfindings
    exact List.flatMap_eq_nil_iff.1 hfindings.2 w hw
  obtain ⟨p, node⟩ := v
  obtain ⟨-, hv, hplace, hown⟩ := h
  suffices hrest : w.place.Sound ∧
      ∀ o ∈ w.place.openers.head?, ∀ n ∈ w.node.declared, n ∈ o.declared from
    ⟨haccepted, hworded, hrest.1, hrest.2⟩
  have hput : ∀ ready, ∀ n ∈ node.declared, (p.put n ready).Sound := fun ready n hn =>
    hplace.put ready (fun h => hv.not_declared (h ▸ hn)) fun o ho => hown o ho n hn
  cases partOf_of_mem hw with
  | within hq _ hpart =>
    rw [hpart hv.nested]
    refine ⟨?_, fun _ _ _ h => nomatch h⟩
    obtain rfl | rfl := hq
    · exact hplace
    · exact hplace.inside
  | initializer => exact ⟨(hput false _ (List.mem_singleton_self _)).inside, fun _ _ _ h => nomatch h⟩
  | function => exact ⟨(hput true _ (List.mem_singleton_self _)).inside, fun _ _ _ h => nomatch h⟩
  | methods =>
    exact ⟨(hput true _ (List.mem_singleton_self _)).inside.inClassBody _, fun _ _ _ h => nomatch h⟩
  | block =>
    -- What the block declares is all that its scope will ever hold.
    refine ⟨hplace.inBlock hworded.not_declared, fun o ho n hn => ?_⟩
    cases ho
    exact hn
  | @body kind r =>
    have hparameters : thisName ∉ r.parameters.map Name.text :=
      fun hn => not_isName_thisName (hv.names _ hn)
    refine ⟨hplace.inRoutine hparameters hworded.not_declared, fun o ho n hn => ?_⟩
    cases ho
    exact List.mem_append_right _ hn
  | @statement s ss =>
    exact ⟨hplace, fun o ho n hn => hown o ho n (List.mem_flatMap_of_mem List.mem_cons_self hn)⟩
  | @later s ss =>
    have hs : ∀ n ∈ s.declared, n ∈ (s :: ss).flatMap Stmt.declared :=
      fun n hn => List.mem_flatMap_of_mem List.mem_cons_self hn
    exact ⟨hplace.after (fun h => hv.not_declared (hs _ h)) fun o ho n hn => hown o ho n (hs n hn),
      fun o ho n hn => hown o ho n (List.mem_append_right _ hn)⟩

/-- Resolving comes to sound visits only, if the grammar is kept. -/
theorem reaches (h : v.Sound) (hworded : ∀ w, v.Reaches w → w.node.Worded) (hw : v.Reaches w) :
    w.Sound := by
  induction hw with
  | refl => exact h
  | tail hvw hw ih => exact ih.part hw (hworded _ (hvw.tail hw))

end Visit.Sound

end Treewalk
