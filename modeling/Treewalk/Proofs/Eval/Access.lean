import Treewalk.Proofs.Eval.Activation

/-!
# The access to names

A run depends on the access to names only where names are accessed. If two ways of access agree at
every activation that a run comes to, then the run is the same with both (`Agreeing.program_eq`).
-/

namespace Treewalk

/-- A host with another access to names. -/
def Host.withAccess (host : Host) (access : Access) : Host := { host with access := access }

/-- At an activation that accesses a name, another access does what that of the host does. -/
def Activation.Agrees (host : Host) (access : Access) : Activation → Prop
  | .node (_ + 1) e (.expression (.variable n a)) s =>
    access.read e n a s = host.access.read e n a s
  | .node (_ + 1) e (.expression (.this line a)) s =>
    access.read e ⟨thisName, line⟩ a s = host.access.read e ⟨thisName, line⟩ a s
  | .node (d + 1) e (.expression (.assign n a x)) s => ∀ v s₁, evaluate host d e x s = .ok v s₁ →
      access.write e n a v s₁ = host.access.write e n a v s₁
  | _ => True

/-- Another access does what that of the host does wherever a run comes. -/
def Activation.Agreeing (host : Host) (access : Access) (a : Activation) : Prop :=
  ∀ b, a.LeadsTo host b → b.Agrees host access

namespace Eval

variable {α β : Type} {s : Store}

/-- Steps that do the same and go on with the same are the same. -/
theorem bind_eq {x x' : Eval α} {f f' : α → Eval β} (hx : x' s = x s)
    (hf : ∀ a s₁, x s = .ok a s₁ → f' a s₁ = f a s₁) : (x' >>= f') s = (x >>= f) s := by
  show EStateM.bind x' f' s = EStateM.bind x f s
  unfold EStateM.bind
  rw [hx]
  cases h : x s with
  | ok a s₁ => exact hf a s₁ h
  | error stop s₁ => rfl

/-- A step on a line is the same if the step is. -/
theorem onLine_eq {line : Int} {x x' : Eval Value} (hx : x' s = x s) :
    onLine line x' s = onLine line x s := by
  unfold onLine
  rw [hx]

end Eval

open Eval

/-- Down to a depth, runs that agree on the access to names are the same. -/
structure SameBelow (host : Host) (access : Access) (d : Nat) : Prop where
  evaluate : ∀ e x s, (Activation.node d e (.expression x) s).Agreeing host access →
    evaluate (host.withAccess access) d e x s = evaluate host d e x s
  execute : ∀ e t s, (Activation.node d e (.statement t) s).Agreeing host access →
    execute (host.withAccess access) d e t s = execute host d e t s
  call : ∀ f vs s, (Activation.call d f vs s).Agreeing host access →
    call (host.withAccess access) d f vs s = call host d f vs s

namespace Activation.Agreeing

variable {host : Host} {access : Access} {a b : Activation} {d : Nat}

/-- A run that agrees throughout agrees at its beginning. -/
theorem agrees (h : a.Agreeing host access) : a.Agrees host access := h a .refl

/-- What a run leads to agrees if the run does. -/
theorem next (h : a.Agreeing host access) (hab : Calls host a b) : b.Agreeing host access :=
  fun c hbc => h c (.head hab hbc)

/-- Arguments come to the same, if expressions below do. -/
theorem arguments_eq (hd : SameBelow host access d) {e : Environment} {xs : List (Expr Address)}
    {s : Store} (h : (Activation.node d e (.arguments xs) s).Agreeing host access) :
    xs.mapM (evaluate (host.withAccess access) d e) s = xs.mapM (evaluate host d e) s := by
  induction xs generalizing s with
  | nil => rfl
  | cons x xs ih =>
    rw [List.mapM_cons, List.mapM_cons]
    refine bind_eq (hd.evaluate e x s (h.next .argument)) fun v s₁ hx => ?_
    exact bind_eq (ih (h.next (.laterArguments hx))) fun _ _ _ => rfl

/-- A body comes to the same, if statements below do. -/
theorem body_eq (hd : SameBelow host access d) {e : Environment} {ss : List (Stmt Address)}
    {s : Store} (h : (Activation.node d e (.body ss) s).Agreeing host access) :
    inOrder (execute (host.withAccess access) d e) ss s = inOrder (execute host d e) ss s := by
  induction ss generalizing s with
  | nil => rfl
  | cons t ss ih =>
    unfold inOrder
    refine bind_eq (hd.execute e t s (h.next .statement)) fun outcome s₁ ht => ?_
    cases outcome with
    | normal => exact ih (h.next (.laterStatements ht))
    | returned v => rfl

/-- A round of a loop comes to the same, if its condition and its body do. -/
theorem oneRound_eq (hd : SameBelow host access d) {e : Environment} {x : Expr Address}
    {b : Stmt Address} {rounds : Nat} {s : Store}
    (h : (Activation.loop (rounds + 1) d e x b s).Agreeing host access) :
    round (evaluate (host.withAccess access) d e x) (execute (host.withAccess access) d e b) s =
      round (evaluate host d e x) (execute host d e b) s := by
  refine bind_eq (hd.evaluate e x s (h.next .loopCondition)) fun v s₁ hx => ?_
  cases hv : v.isTruthy with
  | false => rfl
  | true =>
    simp only [if_true]
    exact bind_eq (hd.execute e b s₁ (h.next (.loopBody hx hv))) fun _ _ _ => rfl

/-- A loop comes to the same, by induction on its rounds. -/
theorem loop_eq (hd : SameBelow host access d) {e : Environment} {x : Expr Address}
    {b : Stmt Address} {rounds : Nat} {s : Store}
    (h : (Activation.loop rounds d e x b s).Agreeing host access) :
    Eval.loop (round (evaluate (host.withAccess access) d e x)
        (execute (host.withAccess access) d e b)) rounds s =
      Eval.loop (round (evaluate host d e x) (execute host d e b)) rounds s := by
  induction rounds generalizing s with
  | zero => rfl
  | succ rounds ih =>
    unfold Eval.loop
    refine bind_eq (oneRound_eq hd h) fun r s₂ hr => ?_
    -- The loop goes on only after a round without a return, from the store that the round has left.
    cases r with
    | none => rfl
    | some outcome =>
      cases outcome with
      | returned v => rfl
      | normal =>
        obtain ⟨v, s₁, hx, hv, hb⟩ := round_eq_some.1 hr
        exact ih (h.next (.loopAgain hx hv hb))

/-- An expression comes to the same one level up. -/
theorem evaluate_eq (hd : SameBelow host access d) {e : Environment} {x : Expr Address} {s : Store}
    (h : (Activation.node (d + 1) e (.expression x) s).Agreeing host access) :
    evaluate (host.withAccess access) (d + 1) e x s = evaluate host (d + 1) e x s := by
  -- Nothing but a variable, an assignment or a receiver looks at the access, and there the two agree.
  unfold evaluate
  cases x with
  | literal => rfl
  | grouping x => exact hd.evaluate e x s (h.next .grouping)
  | unary op line x => exact bind_eq (hd.evaluate e x s (h.next .unary)) fun _ _ _ => rfl
  | binary op line x y =>
    refine bind_eq (hd.evaluate e x s (h.next .left)) fun v s₁ hx => ?_
    exact bind_eq (hd.evaluate e y s₁ (h.next (.right hx))) fun _ _ _ => rfl
  | logical op x y =>
    refine bind_eq (hd.evaluate e x s (h.next .first)) fun v s₁ hx => ?_
    cases hv : op.isDecided v with
    | true => rfl
    | false => exact hd.evaluate e y s₁ (h.next (.second hx hv))
  | «variable» n a => exact h.agrees
  | assign n a x =>
    refine bind_eq (hd.evaluate e x s (h.next .assigned)) fun v s₁ hx => ?_
    exact bind_eq (h.agrees v s₁ hx) fun _ _ _ => rfl
  | call x line xs =>
    refine bind_eq (hd.evaluate e x s (h.next .callee)) fun v s₁ hx => ?_
    refine bind_eq (arguments_eq hd (h.next (.arguments hx))) fun vs s₂ hxs => ?_
    refine bind_eq rfl fun _ s₃ hcheck => ?_
    exact onLine_eq (hd.call v vs s₃ (h.next (.called hx hxs hcheck)))
  | get x n => exact bind_eq (hd.evaluate e x s (h.next .object)) fun _ _ _ => rfl
  | set x n y =>
    refine bind_eq (hd.evaluate e x s (h.next .target)) fun v s₁ hx => ?_
    cases v with
    | object i c => exact bind_eq (hd.evaluate e y s₁ (h.next (.stored hx))) fun _ _ _ => rfl
    | _ => rfl
  | this line a => exact h.agrees
  | lambda r => rfl

/-- A statement comes to the same one level up. -/
theorem execute_eq (hd : SameBelow host access d) {e : Environment} {t : Stmt Address} {s : Store}
    (h : (Activation.node (d + 1) e (.statement t) s).Agreeing host access) :
    execute (host.withAccess access) (d + 1) e t s = execute host (d + 1) e t s := by
  -- Only expressions look at the access, so a statement comes to the same as soon as its parts do.
  unfold execute
  cases t with
  | expression x => exact bind_eq (hd.evaluate e x s (h.next .expression)) fun _ _ _ => rfl
  | print x => exact bind_eq (hd.evaluate e x s (h.next .print)) fun _ _ _ => rfl
  | var n x =>
    cases x with
    | none => rfl
    | some x => exact bind_eq (hd.evaluate e x s (h.next .initializer)) fun _ _ _ => rfl
  | block ss =>
    -- The new frame is made whatever the access is, so both bodies begin in the same store.
    refine bind_eq rfl fun e' s₁ he => ?_
    cases he
    exact body_eq hd (h.next .block)
  | branch x t f =>
    refine bind_eq (hd.evaluate e x s (h.next .condition)) fun v s₁ hx => ?_
    cases hv : v.isTruthy with
    | true => exact hd.execute e t s₁ (h.next (.onTrue hx hv))
    | false =>
      cases f with
      | none => rfl
      | some f => exact hd.execute e f s₁ (h.next (.onFalse hx hv))
  | «while» x b => exact loop_eq hd (h.next .loop)
  | function n r => rfl
  | «return» line x =>
    cases x with
    | none => rfl
    | some x => exact bind_eq (hd.evaluate e x s (h.next .returned)) fun _ _ _ => rfl
  | «class» n ms => rfl

/-- A call comes to the same one level up. -/
theorem call_eq (hd : SameBelow host access d) {f : Value} {vs : List Value} {s : Store}
    (h : (Activation.call (d + 1) f vs s).Agreeing host access) :
    Treewalk.call (host.withAccess access) (d + 1) f vs s = Treewalk.call host (d + 1) f vs s := by
  unfold Treewalk.call
  cases f with
  -- Both make the same frame for the parameters, and the bodies come to the same in it.
  | function i closure =>
    refine bind_eq rfl fun e' s₁ he => ?_
    cases he
    exact bind_eq (body_eq hd (h.next .routine)) fun _ _ _ => rfl
  | «class» i c =>
    refine bind_eq rfl fun receiver s₁ hobject => ?_
    -- An initializer is bound alike and then called.
    cases hm : c.methods.find? initializerName with
    | none => rfl
    | some m =>
      refine bind_eq rfl fun f s₂ hbind => ?_
      exact bind_eq (hd.call f vs s₂ (h.next (.initializerCalled hobject hm hbind))) fun _ _ _ => rfl
  | _ => rfl

end Activation.Agreeing

/-- At every depth, runs that agree on the access to names are the same. -/
theorem sameBelow (host : Host) (access : Access) (d : Nat) : SameBelow host access d := by
  induction d with
  | zero => exact ⟨fun _ _ _ _ => rfl, fun _ _ _ _ => rfl, fun _ _ _ _ => rfl⟩
  | succ d ih =>
    exact ⟨fun _ _ _ h => h.evaluate_eq ih, fun _ _ _ h => h.execute_eq ih,
      fun _ _ _ h => h.call_eq ih⟩

/-- If another access does what that of the host does wherever a program comes, then the program runs
in the same way with it: to the same result, or the same stop, in the same store. -/
theorem Activation.Agreeing.program_eq {host : Host} {access : Access} {d : Nat}
    {program : List (Stmt Address)} {s : Store}
    (h : (Activation.program d program s).Agreeing host access) :
    runProgram (host.withAccess access) d program s = runProgram host d program s := by
  have hd := sameBelow host access d
  unfold runProgram
  -- By induction on the statements, for whatever was the last value.
  generalize (none : Option Value) = last
  induction program generalizing s last with
  | nil => rfl
  | cons t ss ih =>
    rw [List.foldlM_cons, List.foldlM_cons]
    refine bind_eq ?_ fun v s₁ ht => ih (h.next (.laterOutermost ht)) v
    unfold runStatement
    split
    · next x => exact bind_eq (hd.evaluate _ x s (h.next .outermostExpression)) fun _ _ _ => rfl
    · next ht =>
      exact bind_eq (hd.execute _ t s (h.next (.outermostStatement ht))) fun _ _ _ => rfl

end Treewalk
