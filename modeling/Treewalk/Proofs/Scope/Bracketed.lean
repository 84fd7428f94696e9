import Treewalk.Proofs.Scope.Walk

/-!
# The walk of a resolver is well bracketed

What a resolver pushes it pops, and what it sets it puts back. `Resolver.Brackets` says so of any walk:
which names it leaves in the innermost scope, with their states (`Resolver.settle`), at which keys it
writes, and that it does not look at the table or at earlier reports. The steps of a walk are well bracketed, so are two
walks one after the other, and a walk in a scope, a routine or a class of its own. From these the walk over
every part of a program is put together as the part is (`Node.brackets`).
-/

namespace Treewalk

variable {κ : Type}

/-! ## What a part of a program adds -/

/-- The names that a walk over a statement adds to the innermost scope. In a tree that no text is parsed
to, a branch or the body of a loop may be a declaration. -/
def Stmt.gains : Stmt κ → List String
  | .var name _ | .function name _ | .class name _ => [name.text]
  | .branch _ s none | .while _ s => s.gains
  | .branch _ s (some s') => s.gains ++ s'.gains
  | .expression _ | .print _ | .block _ | .return _ _ => []

namespace Node

/-- The names that a walk over a part of a program adds to the innermost scope. -/
def gains : Node κ → List String
  | statement s => s.gains
  | body ss => ss.flatMap Stmt.gains
  | expression _ | arguments _ | routine _ _ | methods _ => []

/-- The key at which the distance of a use of a name is written. -/
def key? : Node κ → Option κ
  | expression (.variable _ key) | expression (.assign _ key _) | expression (.this _ key) => some key
  | _ => none

/-- There is a use of a name in a part of a program, with the given key and the given number of scopes
that are opened around it in the part. -/
def Writes (node : Node κ) (key : κ) (opened : Nat) : Prop :=
  ∃ path m, node.at? path = some m ∧ m.key? = some key ∧ (node.scopesAround path).length = opened

/-- How many scopes a node opens around its parts. -/
def opens : Node κ → Nat
  | statement (.block _) | statement (.class _ _) | routine _ _ => 1
  | _ => 0

variable {node part : Node κ} {key : κ} {n : Nat}

/-- A node opens as many scopes around one part as around any other. -/
theorem length_opened (node : Node κ) (i : Nat) : (node.opened i).length = node.opens := by
  cases node with
  | statement s => cases s <;> rfl
  | _ => rfl

/-- A use of a name writes its key, with no scope opened around it. -/
theorem Writes.own (h : node.key? = some key) : node.Writes key 0 := ⟨[], node, rfl, h, rfl⟩

/-- What a part writes the whole writes, with the scopes that the whole opens around it. -/
theorem Writes.of_part (h : part.Writes key n) (hpart : part ∈ node.children) :
    node.Writes key (n + node.opens) := by
  obtain ⟨path, m, hm, hkey, rfl⟩ := h
  obtain ⟨i, hi⟩ := List.mem_iff_getElem?.1 hpart
  refine ⟨i :: path, m, ?_, hkey, ?_⟩
  · simpa only [at?, hi] using hm
  · simp only [scopesAround, hi, List.length_append, length_opened]

/-- A node that is itself no use of a name writes where its parts do. -/
theorem Writes.exists_part (h : node.Writes key n) (hnone : node.key? = none) :
    ∃ part ∈ node.children, ∃ m, part.Writes key m ∧ n = m + node.opens := by
  obtain ⟨path, m, hm, hkey, rfl⟩ := h
  cases path with
  -- The node itself is no use of a name.
  | nil =>
    cases hm
    rw [hnone] at hkey
    cases hkey
  | cons i path =>
    simp only [at?, scopesAround] at hm ⊢
    -- The path leads through a part, with the scopes that the node opens around it.
    cases hi : node.children[i]? with
    | none =>
      rw [hi] at hm
      cases hm
    | some part =>
      rw [hi] at hm
      refine ⟨part, List.mem_of_getElem? hi, _, ⟨path, m, hm, hkey, rfl⟩, ?_⟩
      rw [List.length_append, length_opened]

/-- What a list of parts writes is written by a node with these parts. -/
theorem Writes.of_parts {parts : Node κ} (h : parts.Writes key n) (hnone : parts.key? = none)
    (hopens : parts.opens = 0) (hparts : parts.children ⊆ node.children) :
    node.Writes key (n + node.opens) := by
  obtain ⟨part, hpart, m, hm, rfl⟩ := h.exists_part hnone
  rw [hopens, Nat.add_zero]
  exact hm.of_part (hparts hpart)

end Node

namespace Resolver

/-- Scopes after the state of some names is set in the innermost one. Global names are not kept. -/
def settle (puts : List (String × Bool)) : List Scope → List Scope
  | [] => []
  | σ :: σs => puts.foldl (fun σ put => σ.put put.1 put.2) σ :: σs

/-- A walk that adds no name leaves the scopes as they are. -/
@[simp] theorem settle_nil (σs : List Scope) : settle [] σs = σs := by cases σs <;> rfl

/-- Names may be added in two turns. -/
theorem settle_append (puts more : List (String × Bool)) (σs : List Scope) :
    settle (puts ++ more) σs = settle more (settle puts σs) := by
  cases σs with
  | nil => rfl
  | cons σ σs =>
    rw [settle, List.foldl_append]
    rfl

/-- No scope is opened or closed where names are added. -/
@[simp] theorem length_settle (puts : List (String × Bool)) (σs : List Scope) :
    (settle puts σs).length = σs.length := by cases σs <;> rfl

/-- Of what is said of one name, the last counts. -/
theorem settle_again (name : String) (b b' : Bool) (σs : List Scope) :
    settle [(name, b), (name, b')] σs = settle [(name, b')] σs := by
  cases σs with
  | nil => rfl
  | cons σ σs => simp [settle, Scope.put, List.filter_filter]

/-- Names that have their values. -/
def ready (names : List String) : List (String × Bool) := names.map (·, true)

/-- A resolver that wrote and reported what another one has before it did what it has done itself. -/
def onto (r base : Resolver κ) : Resolver κ :=
  { r with
    locals := fun k => (r.locals k).or (base.locals k)
    misuses := base.misuses ++ r.misuses }

/-- A walk leaves the resolver in the routine, the class and the scopes that it was in, but for the state of
some names in the innermost scope. It writes at the given keys only, each with the number of the scopes that
it has opened by then, and only distances within the open scopes. What it writes and reports does not depend
on what was written and reported before. -/
structure Brackets (walk : Resolver κ → Resolver κ) (puts : List (String × Bool))
    (Writes : κ → Nat → Prop) : Prop where
  routine : ∀ r, (walk r).routine = r.routine
  inClass : ∀ r, (walk r).inClass = r.inClass
  scopes : ∀ r, (walk r).scopes = settle puts r.scopes
  locals : ∀ r k, (walk r).locals k = r.locals k ∨
    ∃ n d, Writes k n ∧ (walk r).locals k = some d ∧ d < r.scopes.length + n
  onto : ∀ r base, walk (r.onto base) = (walk r).onto base

section

variable {f g : Resolver κ → Resolver κ} {puts more : List (String × Bool)} {W W' : κ → Nat → Prop}

/-- A walk may be said to write at more keys than it does. -/
theorem Brackets.mono (h : Brackets f puts W) (hW : ∀ k n, W k n → W' k n) : Brackets f puts W' where
  __ := h
  locals r k := (h.locals r k).imp_right fun ⟨n, d, hk, hd⟩ => ⟨n, d, hW k n hk, hd⟩

/-- What is left in the innermost scope may be said in another way. -/
theorem Brackets.of_settle (h : Brackets f puts W) (hsettle : ∀ σs, settle puts σs = settle more σs) :
    Brackets f more W where
  __ := h
  scopes r := (h.scopes r).trans (hsettle r.scopes)

/-- Doing nothing is well bracketed. -/
theorem brackets_id : Brackets (fun r : Resolver κ => r) [] W :=
  ⟨fun _ => rfl, fun _ => rfl, fun r => (settle_nil r.scopes).symm, fun _ _ => .inl rfl, fun _ _ => rfl⟩

/-- One walk after another. -/
theorem Brackets.comp (hf : Brackets f puts W) (hg : Brackets g more W) :
    Brackets (fun r => g (f r)) (puts ++ more) W where
  routine r := (hg.routine _).trans (hf.routine r)
  inClass r := (hg.inClass _).trans (hf.inClass r)
  scopes r := by rw [hg.scopes, hf.scopes, settle_append]
  locals r k := by
    rcases hg.locals (f r) k with h | ⟨n, d, hk, hd, hlt⟩
    · rw [h]
      exact hf.locals r k
    · rw [hf.scopes, length_settle] at hlt
      exact .inr ⟨n, d, hk, hd, hlt⟩
  onto r base := by rw [hf.onto, hg.onto]

/-- In a scope of its own a walk changes none of the scopes around. -/
theorem Brackets.inScope (h : Brackets f puts W) (hW : ∀ k n, W k n → W' k (n + 1)) :
    Brackets (inScope f) [] W' where
  routine _ := h.routine _
  inClass _ := h.inClass _
  scopes r := by
    show (f _).scopes.tail = _
    rw [h.scopes, settle_nil]
    rfl
  -- What was written in the scope is written one scope further in.
  locals r k := by
    refine (h.locals { r with scopes := [] :: r.scopes } k).imp_right fun ⟨n, d, hk, hd, hlt⟩ =>
      ⟨n + 1, d, hW k n hk, hd, ?_⟩
    rw [List.length_cons] at hlt
    omega
  onto r base := congrArg (fun s : Resolver κ => { s with scopes := s.scopes.tail })
    (h.onto { r with scopes := [] :: r.scopes } base)

/-- A walk in a routine: the routine that was left is entered again. -/
theorem Brackets.inRoutine (h : Brackets f puts W) (kind : RoutineKind) :
    Brackets (inRoutine kind f) puts W where
  routine _ := rfl
  inClass _ := h.inClass _
  scopes _ := h.scopes _
  locals r k := h.locals { r with routine := some kind } k
  onto r base := congrArg (fun s : Resolver κ => { s with routine := r.routine })
    (h.onto { r with routine := some kind } base)

/-- A walk in a class: whether the place is in a class is put back. -/
theorem Brackets.inClassBody (h : Brackets f puts W) : Brackets (inClassBody f) puts W where
  routine _ := h.routine _
  inClass _ := rfl
  scopes _ := h.scopes _
  locals r k := h.locals { r with inClass := true } k
  onto r base := congrArg (fun s : Resolver κ => { s with inClass := r.inClass })
    (h.onto { r with inClass := true } base)

/-- Names that get ready in two turns get ready. -/
theorem Brackets.ready {names names' : List String} (h : Brackets f (ready names ++ ready names') W) :
    Brackets f (Resolver.ready (names ++ names')) W :=
  h.of_settle fun _ => by simp only [Resolver.ready, List.map_append]

/-- A walk may depend on what the resolver is in, though not on what was written and reported. -/
theorem Brackets.ite {c : Resolver κ → Prop} [DecidablePred c] (hc : ∀ r base, c (r.onto base) ↔ c r)
    (hf : Brackets f puts W) (hg : Brackets g puts W) :
    Brackets (fun r => if c r then f r else g r) puts W where
  -- Each law holds in either branch; both walks of the last one take the same branch.
  routine r := by
    split
    · exact hf.routine r
    · exact hg.routine r
  inClass r := by
    split
    · exact hf.inClass r
    · exact hg.inClass r
  scopes r := by
    split
    · exact hf.scopes r
    · exact hg.scopes r
  locals r := by
    split
    · exact hf.locals r
    · exact hg.locals r
  onto r base := by
    rw [if_congr (hc r base) rfl rfl]
    split
    · exact hf.onto r base
    · exact hg.onto r base

/-! ## Steps of a walk -/

/-- A report only adds to the reports. -/
theorem brackets_report (place : Name) (what : Misuse) :
    Brackets (κ := κ) (report place what) [] W :=
  ⟨fun _ => rfl, fun _ => rfl, fun r => (settle_nil r.scopes).symm, fun _ _ => .inl rfl, fun r base => by
    simp only [report, Resolver.onto, List.append_assoc]⟩

/-- Setting the state of a name is all that `put` does. -/
theorem brackets_put (name : String) (ready : Bool) :
    Brackets (κ := κ) (put name ready) [(name, ready)] W := by
  refine ⟨fun r => ?_, fun r => ?_, fun r => ?_, fun r _ => .inl ?_, fun r base => ?_⟩
  all_goals
    obtain ⟨scopes, locals, routine, inClass, misuses⟩ := r
    cases scopes <;> rfl

/-- Declaring a name leaves it not ready. -/
theorem brackets_declare (name : Name) : Brackets (κ := κ) (declare name) [(name.text, false)] W :=
  .comp (.ite (fun _ _ => .rfl) (brackets_report name .redeclaration) brackets_id) (brackets_put _ _)

/-- Defining a name leaves it ready. -/
theorem brackets_define (name : Name) : Brackets (κ := κ) (define name) [(name.text, true)] W :=
  brackets_put _ _

/-- A name is declared and then, after a walk that says nothing of it, has its value. -/
theorem Brackets.declared (h : Brackets f [] W) (name : Name) :
    Brackets (fun r => (f (r.declare name)).define name) [(name.text, true)] W :=
  (((brackets_declare name).comp h).comp (brackets_define name)).of_settle (settle_again _ _ _)

/-- Of a parameter, declared and then defined, the second counts. -/
theorem brackets_parameters (ps : List Name) :
    Brackets (κ := κ) (fun r => ps.foldl (fun r p => (r.declare p).define p) r)
      (Resolver.ready (ps.map Name.text)) W := by
  induction ps with
  | nil => exact brackets_id
  | cons p ps ih => exact (brackets_id.declared p).comp ih

/-- A name that is read is looked up; at most a report is made. -/
theorem brackets_checkRead (name : Name) : Brackets (κ := κ) (checkRead name) [] W :=
  .ite (fun _ _ => .rfl) (brackets_report name .ownInitializer) brackets_id

/-- A `return` is checked; at most a report is made. -/
theorem brackets_checkReturn (line : Int) (hasValue : Bool) :
    Brackets (κ := κ) (checkReturn line hasValue) [] W :=
  .ite (fun _ _ => .rfl) (brackets_report _ _) (.ite (fun _ _ => .rfl) (brackets_report _ _) brackets_id)

/-- A distance is written at its key, and within the open scopes. -/
theorem brackets_write [DecidableEq κ] {key : κ} (name : String) (hW : W key 0) :
    Brackets (write key name) [] W := by
  -- The distance is the index of the scope that holds the name, so it is below the number of open scopes.
  have hwrite : ∀ r : Resolver κ, (∃ d, d < r.scopes.length ∧
      Scoping.addressFrom 0 name r.scopes = .scope d) ∨
      Scoping.addressFrom 0 name r.scopes = .global := by
    intro r
    cases ha : Scoping.addressFrom 0 name r.scopes with
    | global => exact .inr rfl
    | scope d =>
      obtain ⟨σ, hσ, -⟩ := Scoping.addressFrom_eq_scope (k := 0) (by rwa [Nat.zero_add])
      exact .inl ⟨d, (List.getElem?_eq_some_iff.1 hσ).1, rfl⟩
  refine ⟨fun r => ?_, fun r => ?_, fun r => ?_, fun r k => ?_, fun r base => ?_⟩
  all_goals unfold write
  · split <;> rfl
  · split <;> rfl
  · rw [settle_nil]
    split <;> rfl
  · rcases hwrite r with ⟨d, hd, ha⟩ | ha
    · rw [ha]
      by_cases hk : k = key
      · subst hk
        exact .inr ⟨0, d, hW, if_pos rfl, hd⟩
      · exact .inl (if_neg hk)
    · rw [ha]
      exact .inl rfl
  · have hscopes : (r.onto base).scopes = r.scopes := rfl
    rw [hscopes]
    cases Scoping.addressFrom 0 name r.scopes with
    | global => rfl
    | scope d =>
      simp only [Resolver.onto]
      congr 1
      funext k
      split <;> rfl

end

end Resolver

/-! ## Walks over programs -/

namespace Resolver

variable {node part parts : Node κ} {f : Resolver κ → Resolver κ} {puts : List (String × Bool)}

/-- A part that is walked over where its node is. -/
theorem Brackets.inPart (h : Brackets f puts part.Writes) (hopens : node.opens = 0)
    (hpart : part ∈ node.children) : Brackets f puts node.Writes := by
  refine h.mono fun k n hk => ?_
  have hk := hk.of_part hpart
  rwa [hopens] at hk

/-- Parts that are walked over where their node is. -/
theorem Brackets.inParts (h : Brackets f puts parts.Writes) (hnone : parts.key? = none)
    (hparts : parts.opens = 0) (hopens : node.opens = 0) (hsub : parts.children ⊆ node.children) :
    Brackets f puts node.Writes := by
  refine h.mono fun k n hk => ?_
  have hk := hk.of_parts hnone hparts hsub
  rwa [hopens] at hk

/-- Parts that are walked over in the scope that their node opens. -/
theorem Brackets.inScopeOf (h : Brackets f puts parts.Writes) (hnone : parts.key? = none)
    (hparts : parts.opens = 0) (hopens : node.opens = 1) (hsub : parts.children ⊆ node.children) :
    Brackets (Resolver.inScope f) [] node.Writes := by
  refine h.inScope fun k n hk => ?_
  have hk := hk.of_parts hnone hparts hsub
  rwa [hopens] at hk

end Resolver

section

variable [DecidableEq κ]

open Resolver

mutual

/-- The walk over an expression is that over its operands and then its own step. -/
theorem Expr.brackets (x : Expr κ) : Brackets x.walk [] (Node.expression x).Writes := by
  match x with
  | .literal _ => exact brackets_id
  | .grouping x | .unary _ _ x | .get x _ => exact x.brackets.inPart rfl (.head _)
  | .binary op line x y =>
    have hleft : Brackets x.walk [] (Node.expression (.binary op line x y)).Writes :=
      x.brackets.inPart rfl (.head _)
    have hright : Brackets y.walk [] (Node.expression (.binary op line x y)).Writes :=
      y.brackets.inPart rfl (.tail _ (.head _))
    exact hleft.comp hright
  | .logical op x y =>
    have hleft : Brackets x.walk [] (Node.expression (.logical op x y)).Writes :=
      x.brackets.inPart rfl (.head _)
    have hright : Brackets y.walk [] (Node.expression (.logical op x y)).Writes :=
      y.brackets.inPart rfl (.tail _ (.head _))
    exact hleft.comp hright
  | .variable name _ =>
    -- The read is checked before the distance is written.
    exact (brackets_checkRead name).comp (brackets_write name.text (.own rfl))
  | .assign name key x =>
    have hvalue : Brackets x.walk [] (Node.expression (.assign name key x)).Writes :=
      x.brackets.inPart rfl (.head _)
    exact hvalue.comp (brackets_write name.text (.own rfl))
  | .call x line xs =>
    have hcallee : Brackets x.walk [] (Node.expression (.call x line xs)).Writes :=
      x.brackets.inPart rfl (.head _)
    have harguments : Brackets (Expr.walkList xs) [] (Node.expression (.call x line xs)).Writes :=
      (Expr.bracketsList xs).inParts rfl rfl rfl (List.subset_cons_self _ _)
    exact hcallee.comp harguments
  | .set y name x =>
    -- The value comes first, and the object after it.
    have hvalue : Brackets x.walk [] (Node.expression (.set y name x)).Writes :=
      x.brackets.inPart rfl (.tail _ (.head _))
    have hobject : Brackets y.walk [] (Node.expression (.set y name x)).Writes :=
      y.brackets.inPart rfl (.head _)
    exact hvalue.comp hobject
  | .this _ _ =>
    exact .ite (fun _ _ => .rfl) (brackets_write thisName (.own rfl)) (brackets_report _ _)
  | .lambda f => exact (f.brackets .function).inPart rfl (.head _)

/-- The walk over arguments is that over one after the other. -/
theorem Expr.bracketsList (xs : List (Expr κ)) :
    Brackets (Expr.walkList xs) [] (Node.arguments xs).Writes := by
  match xs with
  | [] => exact brackets_id
  | x :: xs =>
    have hfirst : Brackets x.walk [] (Node.arguments (x :: xs)).Writes :=
      x.brackets.inPart rfl (.head _)
    have hlater : Brackets (Expr.walkList xs) [] (Node.arguments (x :: xs)).Writes :=
      (Expr.bracketsList xs).inParts rfl rfl rfl (List.subset_cons_self _ _)
    exact hfirst.comp hlater

/-- The walk over a statement leaves the names ready that the statement declares. -/
theorem Stmt.brackets (s : Stmt κ) :
    Brackets s.walk (ready s.gains) (Node.statement s).Writes := by
  match s with
  | .expression x | .print x => exact x.brackets.inPart rfl (.head _)
  | .var name none => exact brackets_id.declared name
  | .var name (some x) =>
    -- The initializer is walked over while the name has no value.
    have hvalue : Brackets x.walk [] (Node.statement (.var name (some x))).Writes :=
      x.brackets.inPart rfl (.head _)
    exact hvalue.declared name
  | .block ss => exact (Stmt.bracketsList ss).inScopeOf rfl rfl rfl (List.Subset.refl _)
  | .branch x s none =>
    have hcondition : Brackets x.walk [] (Node.statement (.branch x s none)).Writes :=
      x.brackets.inPart rfl (.head _)
    have hbranch : Brackets s.walk (ready s.gains) (Node.statement (.branch x s none)).Writes :=
      s.brackets.inPart rfl (.tail _ (.head _))
    exact hcondition.comp hbranch
  | .branch x s (some s') =>
    have hcondition : Brackets x.walk [] (Node.statement (.branch x s (some s'))).Writes :=
      x.brackets.inPart rfl (.head _)
    have htrue : Brackets s.walk (ready s.gains) (Node.statement (.branch x s (some s'))).Writes :=
      s.brackets.inPart rfl (.tail _ (.head _))
    have hfalse : Brackets s'.walk (ready s'.gains) (Node.statement (.branch x s (some s'))).Writes :=
      s'.brackets.inPart rfl (.tail _ (.tail _ (.head _)))
    exact ((hcondition.comp htrue).comp hfalse).ready
  | .while x s =>
    have hcondition : Brackets x.walk [] (Node.statement (.while x s)).Writes :=
      x.brackets.inPart rfl (.head _)
    have hbody : Brackets s.walk (ready s.gains) (Node.statement (.while x s)).Writes :=
      s.brackets.inPart rfl (.tail _ (.head _))
    exact hcondition.comp hbody
  | .function name f =>
    -- The name of a function is ready in its own body.
    have hroutine : Brackets (f.walk .function) [] (Node.statement (.function name f)).Writes :=
      (f.brackets .function).inPart rfl (.head _)
    exact (brackets_id.declared name).comp hroutine
  | .return line none => exact brackets_checkReturn line false
  | .return line (some x) =>
    have hvalue : Brackets x.walk [] (Node.statement (.return line (some x))).Writes :=
      x.brackets.inPart rfl (.head _)
    exact (brackets_checkReturn line true).comp hvalue
  | .class name ms =>
    -- The methods are walked over in a scope that holds the receiver.
    have hmethods : Brackets _ [] (Node.statement (.class name ms)).Writes :=
      ((brackets_put thisName true).comp (Routine.bracketsMethods ms)).inScopeOf rfl rfl rfl
        (List.Subset.refl _)
    exact ((brackets_id.declared name).comp hmethods).inClassBody

/-- The walk over a body is that over one statement after the other. -/
theorem Stmt.bracketsList (ss : List (Stmt κ)) :
    Brackets (Stmt.walkList ss) (ready (ss.flatMap Stmt.gains)) (Node.body ss).Writes := by
  match ss with
  | [] => exact brackets_id
  | s :: ss =>
    have hfirst : Brackets s.walk (ready s.gains) (Node.body (s :: ss)).Writes :=
      s.brackets.inPart rfl (.head _)
    have hlater : Brackets (Stmt.walkList ss) (ready (ss.flatMap Stmt.gains))
        (Node.body (s :: ss)).Writes :=
      (Stmt.bracketsList ss).inParts rfl rfl rfl (List.subset_cons_self _ _)
    exact (hfirst.comp hlater).ready

/-- The walk over a routine is that over its body, in a scope that holds the parameters. -/
theorem Routine.brackets (kind : RoutineKind) (f : Routine κ) :
    Brackets (f.walk kind) [] (Node.routine kind f).Writes := by
  match f with
  | .mk ps ss =>
    have hbody : Brackets _ [] (Node.routine kind (.mk ps ss)).Writes :=
      ((brackets_parameters ps).comp (Stmt.bracketsList ss)).inScopeOf rfl rfl rfl (List.Subset.refl _)
    exact hbody.inRoutine kind

/-- The walk over methods is that over one after the other. -/
theorem Routine.bracketsMethods (ms : List (Name × Routine κ)) :
    Brackets (Routine.walkMethods ms) [] (Node.methods ms).Writes := by
  match ms with
  | [] => exact brackets_id
  | (name, f) :: ms =>
    have hfirst : Brackets (f.walk (methodKind name)) [] (Node.methods ((name, f) :: ms)).Writes :=
      (f.brackets (methodKind name)).inPart rfl (.head _)
    have hlater : Brackets (Routine.walkMethods ms) [] (Node.methods ((name, f) :: ms)).Writes :=
      (Routine.bracketsMethods ms).inParts rfl rfl rfl (List.subset_cons_self _ _)
    exact hfirst.comp hlater

end

/-- The walk over a part of a program leaves the names ready that the part declares, and nothing else of
what it does to the scopes lasts. -/
theorem Node.brackets (node : Node κ) : Brackets node.walk (ready node.gains) node.Writes := by
  cases node with
  | expression x => exact x.brackets
  | arguments xs => exact Expr.bracketsList xs
  | statement s => exact s.brackets
  | body ss => exact Stmt.bracketsList ss
  | routine kind f => exact f.brackets kind
  | methods ms => exact Routine.bracketsMethods ms

end

end Treewalk
