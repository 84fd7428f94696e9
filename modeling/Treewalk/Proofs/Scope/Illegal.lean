import Mathlib.Data.List.TakeWhile
import Treewalk.Proofs.Diagnostic.Log
import Treewalk.Proofs.Scope.Path
import Treewalk.Proofs.Scope.Renaming

/-!
# The illegal places of a program

What is illegal at a place of a program can be told from the nodes around it alone
(`Node.illegal`): the routine and the class that it is in, the names that its scope declares before it,
and the variable whose initializer it is in. Resolving reports what is illegal at the nodes of the
program, each node once, and nothing else (`resolveProgram_misuses`).

What resolving knows at a node and what the nodes around it tell are related by `Node.Tells`, which every
step down the tree preserves (`Tells.step`).
-/

namespace Treewalk

namespace Node

variable {ρ : Type}

/-! ## The nodes around a node -/

/-- The nodes around the node at a path, the innermost first, each with the position of the part that the
path goes on to. -/
def enclosing : Node ρ → List Nat → List (Node ρ × Nat)
  | _, [] => []
  | node, i :: path =>
    match node.children[i]? with
    | none => []
    | some part => part.enclosing path ++ [(node, i)]

/-- The kind of routine that a node is. -/
def kind? : Node ρ → Option RoutineKind
  | routine kind _ => some kind
  | _ => none

/-- Whether a node is a class. -/
def isClass : Node ρ → Bool
  | statement (.class _ _) => true
  | _ => false

/-- The variable that a node declares. Its only part is its initializer. -/
def initialized? : Node ρ → Option String
  | statement (.var n _) => some n.text
  | _ => none

/-- The names that are declared before the part at a position in the scope that a node opens, if it opens
one. -/
def declaredBefore? (i : Nat) : Node ρ → Option (List String)
  | statement (.block ss) => some ((ss.take i).flatMap Stmt.declared)
  | statement (.class _ _) => some [thisName]
  | routine _ r => some (r.parameters.map Name.text ++ (r.body.take i).flatMap Stmt.declared)
  | _ => none

/-- The kind of the nearest routine. -/
def nearestRoutine? (around : List (Node ρ × Nat)) : Option RoutineKind :=
  around.findSome? fun (node, _) => node.kind?

/-- Whether there is a class around. -/
def insideClass (around : List (Node ρ × Nat)) : Bool := around.any fun (node, _) => node.isClass

/-- The names that the nearest scope declares before what is inside, if there is a scope around. -/
def localNames? (around : List (Node ρ × Nat)) : Option (List String) :=
  around.findSome? fun (node, i) => node.declaredBefore? i

/-- The variables in whose initializers something is, with no routine in between. -/
def initializing (around : List (Node ρ × Nat)) : List String :=
  (around.takeWhile fun (node, _) => node.kind?.isNone).filterMap fun (node, _) => node.initialized?

/-! ## What is illegal -/

/-- Declares a name that the nearest scope declares before. -/
def redeclared (around : List (Node ρ × Nat)) (n : Name) : List (Name × Misuse) :=
  if n.text ∈ (localNames? around).getD [] then [(n, .redeclaration)] else []

/-- What is illegal at a node by itself, with the word at which it is reported. -/
def illegal (around : List (Node ρ × Nat)) : Node ρ → List (Name × Misuse)
  | expression (.variable n _) =>
    if n.text ∈ initializing around ∧ (localNames? around).isSome then [(n, .ownInitializer)] else []
  | expression (.this line _) =>
    if insideClass around then [] else [(⟨thisName, line⟩, .thisOutside)]
  | statement (.return line value) =>
    match nearestRoutine? around with
    | none => [(⟨Keyword.return_.spelling, line⟩, .returnOutside)]
    | some .initializer =>
      if value.isSome then [(⟨Keyword.return_.spelling, line⟩, .initializerValue)] else []
    | some _ => []
  | statement (.var n _) | statement (.function n _) | statement (.class n _) => redeclared around n
  | routine _ r =>
    r.parameters.zipIdx.flatMap fun (p, i) =>
      if p.text ∈ (r.parameters.take i).map Name.text then [(p, .redeclaration)] else []
  | _ => []

/-- What is illegal at the node at a path. -/
def illegalAt (node : Node ρ) (path : List Nat) : List (Name × Misuse) :=
  match node.at? path with
  | none => []
  | some m => m.illegal (node.enclosing path)

/-! ## The paths of a node -/

/-- The parts of a node are smaller. -/
theorem size_of_child {node part : Node Unit} (h : part ∈ node.children) : part.size < node.size := by
  obtain ⟨p, hp⟩ := exists_comesTo (.outermost 0) h
  exact hp.size_lt

/-- What holds of a node if it holds of its parts holds of every node. -/
theorem induction {P : Node Unit → Prop} (step : ∀ node, (∀ part ∈ node.children, P part) → P node)
    (node : Node Unit) : P node :=
  step node fun part _ => induction step part
termination_by node.size
decreasing_by exact size_of_child ‹_›

/-- The paths to the nodes of a node, its own first. -/
def paths (node : Node Unit) : List (List Nat) :=
  [] :: node.children.attach.zipIdx.flatMap fun (part, i) => part.1.paths.map (i :: ·)
termination_by node.size
decreasing_by exact size_of_child part.2

/-- The paths of a node are the empty one and those through its parts. -/
theorem paths_eq (node : Node Unit) :
    node.paths = [] :: node.children.zipIdx.flatMap fun (part, i) => part.paths.map (i :: ·) := by
  rw [paths]
  conv_rhs => rw [← List.attach_map_subtype_val node.children, List.zipIdx_map, List.flatMap_map]
  rfl

/-- The paths of a node are those that lead to a node. -/
theorem mem_paths {node : Node Unit} {path : List Nat} :
    path ∈ node.paths ↔ (node.at? path).isSome := by
  induction path generalizing node with
  | nil =>
    rw [paths_eq]
    exact iff_of_true List.mem_cons_self rfl
  | cons i path ih =>
    have hpart : i :: path ∈ node.paths ↔ ∃ part, node.children[i]? = some part ∧ path ∈ part.paths := by
      rw [paths_eq, List.mem_cons, List.mem_flatMap]
      simp [List.mem_zipIdx_iff_getElem?]
    rw [hpart]
    simp only [at?, ih]
    cases node.children[i]? <;> simp

/-- No path is listed twice, since paths through different parts begin with different numbers. -/
theorem nodup_paths (node : Node Unit) : node.paths.Nodup := by
  induction node using Node.induction with
  | step node ih =>
    rw [paths_eq, List.nodup_cons, List.nodup_flatMap]
    refine ⟨by simp, fun ⟨part, i⟩ hpart => ?_, ?_⟩
    · have hmem : part ∈ node.children := List.mem_of_getElem? (List.mem_zipIdx_iff_getElem?.1 hpart)
      exact (ih part hmem).map fun _ _ h => (List.cons.inj h).2
    · -- Paths to different parts differ in their first step.
      have hpositions : (List.range' 0 node.children.length).Nodup := List.nodup_range'
      rw [← List.zipIdx_map_snd 0 node.children] at hpositions
      refine (List.pairwise_map.1 hpositions).imp fun {a b} hne path ha hb => ?_
      obtain ⟨_, -, rfl⟩ := List.mem_map.1 ha
      obtain ⟨_, -, hb⟩ := List.mem_map.1 hb
      exact hne (List.cons.inj hb).1.symm

end Node

/-! ## Findings by positions -/

/-- The first of numbered items, and the others. -/
theorem flatMap_zipIdx_cons {α β : Type} (a : α) (as : List α) (f : α × Nat → List β) :
    (a :: as).zipIdx.flatMap f = f (a, 0) ++ as.zipIdx.flatMap fun (b, i) => f (b, i + 1) := by
  rw [List.zipIdx_cons, List.flatMap_cons, List.zipIdx_eq_map_add, List.flatMap_map]
  simp only [Nat.add_comm]

namespace Node

/-- The findings in a list of statements, each at the place after the ones before it. -/
theorem findings_statements (c : Scoping) (ss : List (Stmt Unit)) :
    (Stmt.resolveList c ss).findings = (ss.map statement).zipIdx.flatMap fun (part, i) =>
      (part.resolve ((ss.take i).foldl Scoping.after c)).findings := by
  induction ss generalizing c with
  | nil => rfl
  | cons s ss ih =>
    rw [List.map_cons, flatMap_zipIdx_cons, Stmt.resolveList]
    simp [ih (c.after s), Node.resolve]

/-- The findings in a list of expressions, all at one place. -/
theorem findings_expressions (c : Scoping) (xs : List (Expr Unit)) :
    (Expr.resolveList c xs).findings =
      (xs.map expression).zipIdx.flatMap fun (part, _) => (part.resolve c).findings := by
  induction xs with
  | nil => rfl
  | cons x xs ih =>
    rw [List.map_cons, flatMap_zipIdx_cons, Expr.resolveList]
    simp [ih, Node.resolve]

/-- The findings in the methods of a class, all at one place. -/
theorem findings_methods (c : Scoping) (ms : List (Name × Routine Unit)) :
    (Routine.resolveMethods c ms).findings =
      (ms.map fun m => routine (methodKind m.1) m.2).zipIdx.flatMap fun (part, _) =>
        (part.resolve c).findings := by
  induction ms with
  | nil => rfl
  | cons m ms ih =>
    rw [List.map_cons, flatMap_zipIdx_cons, Routine.resolveMethods]
    simp [ih, Node.resolve]

/-- What resolving a node finds by itself. -/
def ownFindings (c : Scoping) (node : Node Unit) : List Finding := Visit.ownFindings ⟨⟨c, []⟩, node⟩

/-- Resolving finds what is wrong with a node itself and with its parts, in some order. -/
theorem findings_resolve (c : Scoping) (node : Node Unit) : (node.resolve c).findings.Perm
    (node.ownFindings c ++ node.children.zipIdx.flatMap fun (part, i) =>
      (part.resolve (node.scopingAt c i)).findings) := by
  cases node with
  | expression x =>
    cases x with
    | set x n y =>
      -- The value comes before the object.
      have hswap : ((y.resolve c.inside).findings ++ (x.resolve c.inside).findings).Perm
          ((x.resolve c.inside).findings ++ (y.resolve c.inside).findings) := List.perm_append_comm
      simpa [Node.resolve, Expr.resolve, ownFindings, Visit.ownFindings, children, scopingAt] using
        hswap.append_left c.depthFindings
    | call f line xs =>
      refine .of_eq ?_
      rw [children, flatMap_zipIdx_cons]
      simp [Node.resolve, Expr.resolve, ownFindings, Visit.ownFindings, scopingAt, findings_expressions]
    | this line m =>
      refine .of_eq ?_
      simp only [Node.resolve, Expr.resolve, ownFindings, Visit.ownFindings, children]
      split <;> simp
    | _ => simp [Node.resolve, Expr.resolve, ownFindings, Visit.ownFindings, children, scopingAt]
  | statement s =>
    refine .of_eq ?_
    cases s with
    | var n x | «return» line x =>
      cases x <;> simp [Node.resolve, Stmt.resolve, Expr.resolveOption, ownFindings, Visit.ownFindings,
        children, scopingAt, Scoping.declare]
    | branch x s s' =>
      cases s' <;> simp [Node.resolve, Stmt.resolve, Stmt.resolveOption, ownFindings, Visit.ownFindings,
        children, scopingAt]
    | block ss =>
      simp [Node.resolve, Stmt.resolve, ownFindings, Visit.ownFindings, children, scopingAt,
        findings_statements]
    | «class» n ms =>
      simp [Node.resolve, Stmt.resolve, ownFindings, Visit.ownFindings, children, scopingAt,
        findings_methods]
    | _ => simp [Node.resolve, Stmt.resolve, ownFindings, Visit.ownFindings, children, scopingAt]
  | arguments xs => exact .of_eq ((List.append_nil _).trans (findings_expressions c xs))
  | methods ms => exact .of_eq ((List.append_nil _).trans (findings_methods c ms))
  | body ss => exact .of_eq ((List.append_nil _).trans (findings_statements c ss))
  | routine kind r =>
    obtain ⟨ps, ss⟩ := r
    refine .of_eq ?_
    simp [Node.resolve, Routine.resolve, ownFindings, Visit.ownFindings, children, scopingAt,
      findings_statements, Routine.body, Routine.parameters]

end Node

/-! ## What resolving knows -/

/-- A name is not ready if it was put so last. -/
theorem Scope.unready_put {σ : Scope} {n m : String} {ready : Bool} :
    (σ.put m ready).unready n = true ↔ (n = m ∧ ready = false) ∨ (n ≠ m ∧ σ.unready n = true) := by
  unfold unready
  rw [List.contains_iff_mem, List.contains_iff_mem, mem_put]
  simp only [eq_comm]

namespace Scoping

variable {c : Scoping} {σ : Scope} {σs : List Scope}

/-- Outside of all scopes a statement leaves no trace. -/
theorem after_of_nil (h : c.scopes = []) (s : Stmt Unit) : c.after s = c := by
  obtain ⟨scopes, routine, inClass, depth, maxDepth⟩ := c
  subst h
  cases s <;> rfl

/-- Outside of all scopes a declaration is not remembered. -/
theorem foldl_after_of_nil (h : c.scopes = []) (ss : List (Stmt Unit)) :
    ss.foldl Scoping.after c = c := by
  induction ss with
  | nil => rfl
  | cons s ss ih => rw [List.foldl_cons, after_of_nil h, ih]

/-- A scope in which names are declared and have their values. -/
def Holds (σ : Scope) (names : List String) : Prop :=
  ∀ n, (σ.holds n = true ↔ n ∈ names) ∧ σ.unready n = false

/-- A statement adds what it declares to the innermost scope, with its value. -/
theorem after_cons {names : List String} (h : c.scopes = σ :: σs) (hσ : Holds σ names)
    (s : Stmt Unit) : ∃ σ', c.after s = { c with scopes := σ' :: σs } ∧ Holds σ' (names ++ s.declared) := by
  obtain ⟨scopes, routine, inClass, depth, maxDepth⟩ := c
  subst h
  -- A name that is put comes to the others, and none of them is unready.
  have hput : ∀ n, Holds (σ.put n true) (names ++ [n]) := by
    refine fun n m => ⟨?_, ?_⟩
    · rw [Scope.holds_put, (hσ m).1, List.mem_append, List.mem_singleton, or_comm]
    · rw [Bool.eq_false_iff]
      intro hm
      obtain ⟨-, hready⟩ | ⟨-, hm⟩ := Scope.unready_put.1 hm
      · cases hready
      · cases hm.symm.trans (hσ m).2
  cases s with
  | var n x | function n r | «class» n ms => exact ⟨_, rfl, hput n.text⟩
  | _ => exact ⟨σ, rfl, (List.append_nil names).symm ▸ hσ⟩

/-- Statements one after another add what they declare. -/
theorem foldl_after {names : List String} (h : c.scopes = σ :: σs) (hσ : Holds σ names)
    (ss : List (Stmt Unit)) : ∃ σ', ss.foldl Scoping.after c = { c with scopes := σ' :: σs } ∧
      Holds σ' (names ++ ss.flatMap Stmt.declared) := by
  induction ss generalizing c σ names with
  | nil =>
    rw [List.flatMap_nil, List.append_nil]
    exact ⟨σ, by rw [← h]; rfl, hσ⟩
  | cons s ss ih =>
    obtain ⟨σ₁, hafter, hσ₁⟩ := after_cons h hσ s
    obtain ⟨σ', hfold, hσ'⟩ := ih (c := c.after s) (by rw [hafter]) hσ₁
    refine ⟨σ', ?_, ?_⟩
    · rw [List.foldl_cons, hfold, hafter]
    · rwa [List.flatMap_cons, ← List.append_assoc]

/-- The scope of a routine holds its parameters. -/
theorem holds_parameterScope (ps : List Name) : Holds (parameterScope ps) (ps.map Name.text) := by
  refine fun n => ⟨?_, ?_⟩
  · rw [Scope.holds_iff]
    simp only [mem_parameterScope]
    exact ⟨fun ⟨_, hn, _⟩ => hn, fun hn => ⟨true, hn, rfl⟩⟩
  · rw [Bool.eq_false_iff]
    intro hn
    cases (mem_parameterScope.1 (List.contains_iff_mem.1 hn)).2

end Scoping

namespace Node

variable {around : List (Node Unit × Nat)} {c : Scoping} {node part : Node Unit} {i : Nat}

/-- What resolving knows at a node is what the nodes around it tell. Where there is a statement no
initializer is open, and the innermost scope holds what it declares before the statement. -/
structure Tells (around : List (Node Unit × Nat)) (c : Scoping) (node : Node Unit) : Prop where
  routine : c.routine = nearestRoutine? around
  inClass : c.inClass = insideClass around
  scopes : c.scopes = [] ↔ localNames? around = none
  unready : ∀ σ σs, c.scopes = σ :: σs → ∀ n, σ.unready n = true ↔ n ∈ initializing around
  statement : ∀ s, node = .statement s → initializing around = [] ∧
    ∀ σ σs names, c.scopes = σ :: σs → localNames? around = some names → Scoping.Holds σ names
  body : ∀ ss, node = .body ss → c.scopes = [] ∧ initializing around = []

namespace Tells

/-- A node that opens no scope and is no variable tells its parts nothing new. -/
theorem plain (h : Tells around c node) (hnode : node.kind? = none ∧ node.isClass = false ∧
      node.declaredBefore? i = none ∧ node.initialized? = none)
    (hpart : (∃ s, part = .statement s) → ∃ s, node = .statement s) (hbody : ∀ ss, part ≠ .body ss) :
    Tells ((node, i) :: around) c part := by
  obtain ⟨hkind, hclass, hopen, hvar⟩ := hnode
  -- A part of a node that opens nothing and initializes nothing sees what the node sees.
  have hroutine : nearestRoutine? ((node, i) :: around) = nearestRoutine? around := by
    simp [nearestRoutine?, hkind]
  have hinside : insideClass ((node, i) :: around) = insideClass around := by
    simp [insideClass, hclass]
  have hlocal : localNames? ((node, i) :: around) = localNames? around := by
    simp [localNames?, hopen]
  have hinitializing : initializing ((node, i) :: around) = initializing around := by
    simp [initializing, hkind, hvar]
  constructor
  · rw [hroutine]
    exact h.routine
  · rw [hinside]
    exact h.inClass
  · rw [hlocal]
    exact h.scopes
  · rw [hinitializing]
    exact h.unready
  · intro s hs
    obtain ⟨t, ht⟩ := hpart ⟨s, hs⟩
    rw [hlocal, hinitializing]
    exact h.statement t ht
  · exact fun ss hss => absurd hss (hbody ss)

/-- In a scope that was just opened the names before a part are known, and no initializer is open. -/
theorem opened {names : List String} {σ : Scope} {σs : List Scope}
    (hopen : node.declaredBefore? i = some names) (hscopes : c.scopes = σ :: σs)
    (hσ : Scoping.Holds σ names) (hinitializing : initializing ((node, i) :: around) = [])
    (hroutine : c.routine = nearestRoutine? ((node, i) :: around))
    (hclass : c.inClass = insideClass ((node, i) :: around)) (hbody : ∀ ss, part ≠ .body ss) :
    Tells ((node, i) :: around) c part := by
  have hlocal : localNames? ((node, i) :: around) = some names := by
    simp [localNames?, hopen]
  -- The innermost scope holds the names of the node that opened it, and none of them is unready.
  refine ⟨hroutine, hclass, ?_, ?_, ?_, fun ss hss => absurd hss (hbody ss)⟩
  · rw [hscopes, hlocal]
    simp
  · intro σ' σs' hσ' n
    rw [hscopes] at hσ'
    cases hσ'
    rw [hinitializing, (hσ n).2]
    simp
  · refine fun s _ => ⟨hinitializing, fun σ' σs' names' hσ' hnames => ?_⟩
    rw [hscopes] at hσ'
    rw [hlocal] at hnames
    cases hσ'
    cases hnames
    exact hσ

/-- Going inwards opens no scope. -/
theorem inside (h : Tells around c node) : Tells around c.inside node :=
  ⟨h.routine, h.inClass, h.scopes, h.unready, h.statement, h.body⟩

/-- A declaration puts its name into the innermost scope. In the initializer of a variable the name has
no value yet. -/
theorem put {s : Stmt Unit} {n : String} {ready : Bool} (h : Tells around c (.statement s))
    (hs : (Node.statement s).isClass = false ∧ (Node.statement s).declaredBefore? i = none ∧
      (Node.statement s).initialized? = if ready then none else some n)
    (hpart : ∀ t, part ≠ .statement t) (hbody : ∀ ss, part ≠ .body ss) :
    Tells ((.statement s, i) :: around) (c.put n ready) part := by
  obtain ⟨hclass, hopen, hvar⟩ := hs
  obtain ⟨hnone, hnames⟩ := h.statement s rfl
  have hroutine : nearestRoutine? ((.statement s, i) :: around) = nearestRoutine? around := rfl
  have hinside : insideClass ((.statement s, i) :: around) = insideClass around := by
    simp [insideClass, hclass]
  have hlocal : localNames? ((.statement s, i) :: around) = localNames? around := by
    simp [localNames?, hopen]
  -- Only a variable is being initialized while its initializer is resolved.
  have hinitializing : initializing ((.statement s, i) :: around) = if ready then [] else [n] := by
    have hcons : initializing ((.statement s, i) :: around) =
        (Node.statement s).initialized?.toList ++ initializing around := by
      unfold initializing
      cases hi : (Node.statement s).initialized? <;> simp [kind?, hi]
    rw [hcons, hvar, hnone]
    cases ready <;> rfl
  obtain ⟨scopes, routine, inClass, depth, maxDepth⟩ := c
  cases scopes with
  | nil =>
    refine ⟨hroutine ▸ h.routine, hinside ▸ h.inClass, hlocal ▸ h.scopes, fun σ σs hσ => ?_,
      fun t ht => absurd ht (hpart t), fun ss hss => absurd hss (hbody ss)⟩
    cases hσ
  | cons σ σs =>
    refine ⟨hroutine ▸ h.routine, hinside ▸ h.inClass, ?_, ?_, fun t ht => absurd ht (hpart t),
      fun ss hss => absurd hss (hbody ss)⟩
    · rw [hlocal, ← h.scopes]
      exact iff_of_false (List.cons_ne_nil _ _) (List.cons_ne_nil _ _)
    · intro σ' σs' hσ' m
      cases hσ'
      -- In a local scope, the names are those that are declared so far, and none of them is unready at a
      -- statement.
      obtain ⟨names, hlocal'⟩ : ∃ names, localNames? around = some names :=
        Option.ne_none_iff_exists'.1 fun hnone => List.cons_ne_nil _ _ (h.scopes.2 hnone)
      have hready : σ.unready m = false := (hnames σ σs names rfl hlocal' m).2
      rw [Scope.unready_put, hinitializing, hready]
      cases ready <;> simp

/-- A step down the tree. -/
theorem step (h : Tells around c node) (hpart : node.children[i]? = some part) :
    Tells ((node, i) :: around) (node.scopingAt c i) part := by
  have hmem := List.mem_of_getElem? hpart
  have hbody := ne_body hpart
  cases node with
  | expression x =>
    have hstatement : ¬∃ s, part = .statement s := by
      -- No expression has a statement for a part.
      rintro ⟨s, rfl⟩
      cases x <;> simp [children] at hmem
    exact h.inside.plain ⟨rfl, rfl, rfl, rfl⟩ (fun hs => absurd hs hstatement) hbody
  | arguments xs =>
    obtain ⟨x, -, rfl⟩ := List.mem_map.1 hmem
    refine h.plain ⟨rfl, rfl, rfl, rfl⟩ ?_ hbody
    rintro ⟨s, hs⟩
    cases hs
  | methods ms =>
    obtain ⟨m, -, rfl⟩ := List.mem_map.1 hmem
    refine h.plain ⟨rfl, rfl, rfl, rfl⟩ ?_ hbody
    rintro ⟨s, hs⟩
    cases hs
  -- Statements outside of a block or a routine lie in no scope.
  | body ss =>
    obtain ⟨hscopes, hnone⟩ := h.body ss rfl
    rw [scopingAt, Scoping.foldl_after_of_nil hscopes]
    refine ⟨h.routine, h.inClass, h.scopes, h.unready, fun s _ => ⟨hnone, fun σ σs names hσ => ?_⟩,
      fun ss hss => absurd hss (hbody ss)⟩
    cases hscopes.symm.trans hσ
  | routine kind r =>
    obtain ⟨σ, hfold, hσ⟩ := Scoping.foldl_after (c.scopes_inRoutine kind r.parameters)
      (Scoping.holds_parameterScope r.parameters) (r.body.take i)
    obtain ⟨hkind, hclass⟩ := c.routine_inRoutine kind r.parameters
    have hc : (Node.routine kind r).scopingAt c i =
        { c.inRoutine kind r.parameters with scopes := σ :: c.scopes } := hfold
    rw [hc]
    exact opened rfl rfl hσ rfl hkind (hclass.trans h.inClass) hbody
  | statement s =>
    have hnone : initializing around = [] := (h.statement s rfl).1
    cases s with
    | expression x | print x => exact h.inside.plain ⟨rfl, rfl, rfl, rfl⟩ (fun _ => ⟨_, rfl⟩) hbody
    | «return» line x => exact h.inside.plain ⟨rfl, rfl, rfl, rfl⟩ (fun _ => ⟨_, rfl⟩) hbody
    | branch x s s' | «while» x s =>
      exact h.inside.plain ⟨rfl, rfl, rfl, rfl⟩ (fun _ => ⟨_, rfl⟩) hbody
    | var n x =>
      cases x with
      | none => cases hmem
      | some x =>
        cases List.mem_singleton.1 hmem
        exact (h.put ⟨rfl, rfl, rfl⟩ (fun t ht => by cases ht) hbody).inside
    | function n r =>
      cases List.mem_singleton.1 hmem
      exact (h.put ⟨rfl, rfl, rfl⟩ (fun t ht => by cases ht) hbody).inside
    | block ss =>
      -- A block opens a scope, in which the statements before the part are declared.
      have hempty : Scoping.Holds [] [] := fun n => ⟨by simp [Scope.holds], rfl⟩
      obtain ⟨σ, hfold, hσ⟩ := Scoping.foldl_after (c := c.inside.push []) rfl hempty (ss.take i)
      have hc : (Node.statement (.block ss)).scopingAt c i =
          { c.inside.push [] with scopes := σ :: c.scopes } := hfold
      rw [hc]
      exact opened rfl rfl hσ hnone h.routine h.inClass hbody
    | «class» n ms =>
      -- A class opens a scope that holds the receiver alone.
      have hthis : Scoping.Holds [(thisName, true)] [thisName] := by
        refine fun m => ⟨?_, ?_⟩
        · rw [Scope.holds_iff, List.mem_singleton]
          simp
        · simp [Scope.unready]
      have hclass : (c.define n).inside.inClassBody.routine = c.routine := by
        obtain ⟨scopes, routine, inClass, depth, maxDepth⟩ := c
        cases scopes <;> rfl
      exact opened rfl rfl hthis hnone (hclass.trans h.routine) rfl hbody

end Tells

/-- Parameters are redeclared if there is an earlier one with the same name. -/
theorem parameterRedeclarations_eq (names : List String) {σ : Scope} {σs : List Scope}
    (hscopes : c.scopes = σ :: σs) (hσ : ∀ n, σ.holds n = true ↔ n ∈ names) (ps : List Name) :
    c.parameterRedeclarations ps = ps.zipIdx.flatMap fun (p, i) =>
      if p.text ∈ names ++ (ps.take i).map Name.text then [.misuse p .redeclaration] else [] := by
  induction ps generalizing c names σ with
  | nil => rfl
  | cons p ps ih =>
    obtain ⟨scopes, routine, inClass, depth, maxDepth⟩ := c
    subst hscopes
    -- The parameter comes to the names before those behind it are looked at.
    have hput : ∀ n, (σ.put p.text true).holds n = true ↔ n ∈ names ++ [p.text] := by
      intro n
      rw [Scope.holds_put, hσ n, List.mem_append, List.mem_singleton, or_comm]
    have hlater := ih (names ++ [p.text])
      (c := ⟨σ.put p.text true :: σs, routine, inClass, depth, maxDepth⟩) rfl hput
    rw [flatMap_zipIdx_cons]
    show (if σ.holds p.text then [Finding.misuse p .redeclaration] else []) ++
      Scoping.parameterRedeclarations ⟨σ.put p.text true :: σs, routine, inClass, depth, maxDepth⟩ ps = _
    rw [hlater]
    simp [hσ]

/-- That a node is nested too deeply is no misuse. -/
theorem misuses_depth (c : Scoping) (findings : List Finding) :
    (c.depthFindings ++ findings).filterMap Finding.misuse? = findings.filterMap Finding.misuse? := by
  unfold Scoping.depthFindings
  split <;> rfl

/-- A declaration is reported if it repeats a name of its scope. -/
theorem misuses_redeclarations {s : Stmt Unit} (h : Tells around c (.statement s)) (n : Name) :
    (c.redeclarations n).filterMap Finding.misuse? = redeclared around n := by
  obtain ⟨-, hnames⟩ := h.statement s rfl
  unfold Scoping.redeclarations redeclared
  -- Outside of all scopes nothing is redeclared; in a scope it holds the names of before.
  cases hscopes : c.scopes with
  | nil => simp [h.scopes.1 hscopes]
  | cons σ σs =>
    obtain ⟨names, hlocal⟩ : ∃ names, localNames? around = some names :=
      Option.ne_none_iff_exists'.1 fun hnone => by simp [h.scopes.2 hnone] at hscopes
    have hσ := (hnames σ σs names hscopes hlocal n.text).1
    rw [hlocal]
    by_cases hn : n.text ∈ names
    · simp [hσ.2 hn, hn, Finding.misuse?]
    · simp [mt hσ.1 hn, hn]

/-- A variable is reported if it is read in its own initializer. -/
theorem misuses_ownInitializers (h : Tells around c node) (n : Name) :
    (c.ownInitializers n).filterMap Finding.misuse? =
      if n.text ∈ initializing around ∧ (localNames? around).isSome then [(n, .ownInitializer)]
      else [] := by
  unfold Scoping.ownInitializers
  -- Outside of all scopes no initializer is one's own; in a scope the names without value are those.
  cases hscopes : c.scopes with
  | nil => simp [h.scopes.1 hscopes]
  | cons σ σs =>
    obtain ⟨names, hlocal⟩ : ∃ names, localNames? around = some names :=
      Option.ne_none_iff_exists'.1 fun hnone => by simp [h.scopes.2 hnone] at hscopes
    have hunready := h.unready σ σs hscopes n.text
    by_cases hn : n.text ∈ initializing around
    · simp [hunready.2 hn, hn, hlocal, Finding.misuse?]
    · simp [mt hunready.1 hn, hn]

/-- What resolving finds at a node by itself is what is illegal there. -/
theorem misuses_own (h : Tells around c node) :
    (node.ownFindings c).filterMap Finding.misuse? = node.illegal around := by
  cases node with
  | expression x =>
    refine (misuses_depth c _).trans ?_
    cases x with
    | «variable» n m => exact misuses_ownInitializers h n
    | this line m =>
      simp only [h.inClass, illegal]
      split <;> rfl
    | _ => rfl
  | statement s =>
    refine (misuses_depth c _).trans ?_
    cases s with
    | var n x | function n r | «class» n ms => exact misuses_redeclarations h n
    | «return» line x =>
      simp only [Scoping.returnMisuses, h.routine, illegal]
      rcases nearestRoutine? around with - | kind
      · rfl
      · cases kind with
        | function | method => rfl
        | initializer => cases x <;> rfl
    | _ => rfl
  | routine kind r =>
    -- The parameters are declared in a scope that is empty before.
    have hrepeated := parameterRedeclarations_eq (c := c.push []) [] rfl
      (fun n => by simp [Scope.holds]) r.parameters
    show ((c.push []).parameterRedeclarations r.parameters).filterMap Finding.misuse? = _
    rw [hrepeated, List.filterMap_flatMap, illegal]
    congr 1
    funext ⟨p, i⟩
    simp only [List.nil_append]
    split <;> rfl
  | _ => rfl

/-- What is illegal at the node at a path, with nodes around the first. -/
def illegalBelow (around : List (Node ρ × Nat)) (node : Node ρ) (path : List Nat) :
    List (Name × Misuse) :=
  match node.at? path with
  | none => []
  | some m => m.illegal (node.enclosing path ++ around)

/-- Resolving a node finds what is illegal at its nodes. -/
theorem misuses_resolve (h : Tells around c node) :
    ((node.resolve c).findings.filterMap Finding.misuse?).Perm
      (node.paths.flatMap (node.illegalBelow around)) := by
  induction node using Node.induction generalizing around c with
  | step node ih =>
    -- The node reports what is illegal at it, and its parts what is illegal below, in some order.
    refine ((findings_resolve c node).filterMap _).trans ?_
    rw [List.filterMap_append, misuses_own h, List.filterMap_flatMap, paths_eq, List.flatMap_cons,
      List.flatMap_assoc]
    refine .append_left _ (List.Perm.flatMap_left _ fun ⟨part, i⟩ hmem => ?_)
    have hpart : node.children[i]? = some part := List.mem_zipIdx_iff_getElem?.1 hmem
    refine (ih part (List.mem_of_getElem? hpart) (h.step hpart)).trans (.of_eq ?_)
    rw [List.flatMap_map]
    congr 1
    funext path
    simp only [illegalBelow, at?, enclosing, hpart, List.append_assoc, List.singleton_append]

end Node

/-- Resolving a program reports what is illegal at its nodes, each node once, and nothing else: what is
wrong at one node changes nothing of what is reported of another. The order is that of the walk. If the
program is nested too deeply, the report stops where it is. -/
theorem resolveProgram_misuses (program : List (Stmt Unit)) :
    (Node.body program).paths.Nodup ∧
    (∀ path, path ∈ (Node.body program).paths ↔ ((Node.body program).at? path).isSome) ∧
    ∀ (log : Log) (limits : Limits),
      let findings := (resolveProgram limits.tree program).findings
      let misuses := findings.filterMap Finding.misuse?
      misuses.Perm ((Node.body program).paths.flatMap (Node.body program).illegalAt) ∧
        (.tooDeep ∉ findings →
          log.Reports (log.resolveProgram limits program).1 (misuses.map misuseDiagnostic)) := by
  refine ⟨Node.nodup_paths _, fun path => Node.mem_paths, fun log limits => ⟨?_, fun hdeep => ?_⟩⟩
  · have htells : Node.Tells [] (.outermost limits.tree) (.body program) :=
      -- At the outermost place nothing is around the program, neither for the resolver nor for the paths.
      ⟨rfl, rfl, by simp [Scoping.outermost, Node.localNames?], nofun, nofun, fun _ _ => ⟨rfl, rfl⟩⟩
    have hresolved : (resolveProgram limits.tree program).findings =
        ((Node.body program).resolve (.outermost limits.tree)).findings := (List.append_nil _).symm
    have hillegal : (Node.body program).illegalAt = (Node.body program).illegalBelow [] := by
      funext path
      simp only [Node.illegalAt, Node.illegalBelow, List.append_nil]
    rw [hresolved, hillegal]
    exact Node.misuses_resolve htells
  · have hall : (resolveProgram limits.tree program).findings.takeWhile (· ≠ .tooDeep) =
        -- All findings are reported, since none of them stops resolving.
        (resolveProgram limits.tree program).findings :=
      List.takeWhile_eq_self_iff.2 fun f hf => decide_eq_true fun heq => hdeep (heq ▸ hf)
    unfold Log.resolveProgram
    simp only [hall]
    exact log.reports_misuses _

/-- A variable that is declared twice in a block, the second time with itself as its value, and a return
of the receiver from outside. -/
def fourMisuses : List (Stmt Unit) :=
  [.block [.var ⟨"a", 1⟩ none, .var ⟨"a", 2⟩ (some (.variable ⟨"a", 2⟩ ()))],
    .return 3 (some (.this 3 ()))]

/-- Each of the four is reported, although the second comes with the first. -/
theorem resolveProgram_misuses_fourMisuses :
    .tooDeep ∉ (resolveProgram 300 fourMisuses).findings ∧
      ((Node.body fourMisuses).paths.flatMap (Node.body fourMisuses).illegalAt).Perm
        [(⟨"a", 2⟩, .redeclaration), (⟨"a", 2⟩, .ownInitializer), (⟨"return", 3⟩, .returnOutside),
          (⟨"this", 3⟩, .thisOutside)] ∧
      ((Log.resolveProgram {} .standard fourMisuses).1).diagnostics.toList.length = 4 := by
  have hdeep : .tooDeep ∉ (resolveProgram 300 fourMisuses).findings := by decide +kernel
  obtain ⟨hperm, hreports⟩ := (resolveProgram_misuses fourMisuses).2.2 {} .standard
  refine ⟨hdeep, ?_, ?_⟩
  · exact hperm.symm.trans (.of_eq (by decide +kernel))
  · rw [(hreports hdeep).diagnostics]
    decide +kernel

end Treewalk
