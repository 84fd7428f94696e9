import Treewalk.Proofs.Session.Interpreter.Steps

/-!
# Runs of an interpreter

An interpreter that evaluates and executes code follows the run at every depth, from the steps of the
constructs and by induction on the depth (`Interpreter.keeps`). So do the statements of a program, one
after another (`Interpreter.follows_runProgram`).
-/

namespace Treewalk

namespace Interpreter

variable {host : Host} {e e' : Environment} {i i₁ : Interpreter} {d : Nat}

/-! ## Evaluation -/

/-- At a depth an interpreter follows a run. -/
structure Keeps (host : Host) (d : Nat) : Prop where
  evaluate : ∀ {e i} (x : Expr Address), Ready host e i → Follows host e i LinkedValue
    (Treewalk.evaluate host d e x i.store) (Interpreter.evaluate host d x i)
  execute : ∀ {e i} (t : Stmt Address), Ready host e i → Follows host e i LinkedOutcome
    (Treewalk.execute host d e t i.store) (Interpreter.execute host d t i)
  call : ∀ {e i} {f : Value} {vs : List Value}, Ready host e i → f.Linked i.enclosing →
    (∀ a ∈ vs, a.Linked i.enclosing) → Follows host e i LinkedValue
      (Treewalk.call host d f vs i.store) (Interpreter.call host d f vs i)

/-- An outcome that is no return has no value. -/
theorem linkedOutcome_normal (enclosing : List (Option Environment)) :
    LinkedOutcome enclosing .normal := fun _ hv => by cases hv

/-- A linked value may be returned. -/
theorem linkedOutcome_returned {enclosing : List (Option Environment)} {v : Value}
    (hv : v.Linked enclosing) : LinkedOutcome enclosing (.returned v) :=
  fun _ hw => Outcome.returned.inj hw ▸ hv

namespace Keeps

variable (hd : Keeps host d)
include hd

/-- Arguments are evaluated one after another, each in the environment that the one before has put back. -/
theorem arguments (xs : List (Expr Address)) (hi : Ready host e i) :
    Follows host e i (fun enclosing vs => ∀ a ∈ vs, a.Linked enclosing)
      (xs.mapM (Treewalk.evaluate host d e) i.store) (xs.mapM (Interpreter.evaluate host d) i) := by
  induction xs generalizing i with
  | nil => exact .pure hi fun a ha => by cases ha
  | cons x xs ih =>
    rw [List.mapM_cons, List.mapM_cons]
    refine (hd.evaluate x hi).bind fun v i₁ hi₁ _ hv => ?_
    refine (ih hi₁).bind fun vs i₂ hi₂ hmono hvs => .pure hi₂ fun a ha => ?_
    rcases List.mem_cons.1 ha with rfl | ha
    · exact Value.Linked.mono hmono hv
    · exact hvs a ha

/-- A body is executed one statement after another, up to the first that returns. -/
theorem inOrder (ts : List (Stmt Address)) (hi : Ready host e i) : Follows host e i LinkedOutcome
    (Eval.inOrder (Treewalk.execute host d e) ts i.store)
      (Interpreter.inOrder (Interpreter.execute host d) ts i) := by
  induction ts generalizing i with
  | nil => exact .pure hi (linkedOutcome_normal _)
  | cons t ts ih =>
    refine (hd.execute t hi).bind fun outcome i₁ hi₁ _ houtcome => ?_
    cases outcome with
    | normal => exact ih hi₁
    | returned v => exact .pure hi₁ houtcome

/-- A round of a loop. -/
theorem oneRound (x : Expr Address) (b : Stmt Address) (hi : Ready host e i) :
    Follows host e i (fun enclosing r => ∀ o, r = some o → LinkedOutcome enclosing o)
      (Eval.round (Treewalk.evaluate host d e x) (Treewalk.execute host d e b) i.store)
      (Interpreter.round (Interpreter.evaluate host d x) (Interpreter.execute host d b) i) := by
  refine (hd.evaluate x hi).bind fun v i₁ hi₁ _ hv => ?_
  cases v.isTruthy with
  | true => exact (hd.execute b hi₁).map fun _ _ ho _ hr => Option.some.inj hr ▸ ho
  | false => exact .pure hi₁ fun o ho => by cases ho

/-- A loop, by induction on its rounds. -/
theorem loop (x : Expr Address) (b : Stmt Address) (rounds : Nat) (hi : Ready host e i) :
    Follows host e i LinkedOutcome
      (Eval.loop (Eval.round (Treewalk.evaluate host d e x) (Treewalk.execute host d e b)) rounds i.store)
      (Interpreter.loop (Interpreter.round (Interpreter.evaluate host d x)
        (Interpreter.execute host d b)) rounds i) := by
  induction rounds generalizing i with
  | zero => exact .throw hi _
  | succ rounds ih =>
    refine (oneRound hd x b hi).bind fun r i₁ hi₁ _ hr => ?_
    -- The last round ends the loop; else it goes on from where the round has left.
    cases r with
    | none => exact .pure hi₁ (linkedOutcome_normal _)
    | some outcome =>
      cases outcome with
      | normal => exact ih hi₁
      | returned v => exact .pure hi₁ (hr _ rfl)

/-- Expressions follow if what is less deep does. -/
theorem evaluate_succ (x : Expr Address) (hi : Ready host e i) : Follows host e i LinkedValue
    (Treewalk.evaluate host (d + 1) e x i.store) (Interpreter.evaluate host (d + 1) x i) := by
  -- A value that an earlier part gave stays linked while the later parts run.
  unfold Treewalk.evaluate Interpreter.evaluate
  cases x with
  | literal value => exact .pure hi (Value.linked_literal value)
  | grouping x => exact hd.evaluate x hi
  | unary op line x =>
    exact (hd.evaluate x hi).bind fun v i₁ hi₁ _ _ => follows_operator hi₁ fun _ => linked_unary
  | binary op line x y =>
    refine (hd.evaluate x hi).bind fun v i₁ hi₁ _ _ => ?_
    exact (hd.evaluate y hi₁).bind fun w i₂ hi₂ _ _ => follows_operator hi₂ fun _ => linked_binary
  | logical op x y =>
    refine (hd.evaluate x hi).bind fun v i₁ hi₁ _ hv => ?_
    cases op.isDecided v with
    | true => exact .pure hi₁ hv
    | false => exact hd.evaluate y hi₁
  | «variable» n address =>
    refine .current hi ?_
    rw [hi.access]
    exact follows_read hi e n address
  | assign n address x =>
    refine (hd.evaluate x hi).bind fun v i₁ hi₁ _ hv => .current hi₁ ?_
    rw [hi.access]
    refine (follows_write hi₁ e n address hv).bind fun _ i₂ hi₂ hmono _ => ?_
    exact .pure hi₂ (Value.Linked.mono hmono hv)
  | call x line xs =>
    refine (hd.evaluate x hi).bind fun f i₁ hi₁ _ hf => ?_
    refine (hd.arguments xs hi₁).bind fun vs i₂ hi₂ hmono hvs => ?_
    refine (follows_checkCall hi₂ line f vs.length).bind fun _ i₃ hi₃ hmono₃ _ => follows_onLine ?_
    exact hd.call hi₃ (Value.Linked.mono (hmono.trans hmono₃) hf) fun a ha => (hvs a ha).mono hmono₃
  | get x n => exact (hd.evaluate x hi).bind fun v i₁ hi₁ _ hv => follows_property n hi₁ hv
  | set x n y =>
    refine (hd.evaluate x hi).bind fun v i₁ hi₁ _ _ => ?_
    cases v with
    | object k c =>
      refine (hd.evaluate y hi₁).bind fun w i₂ hi₂ _ hw => ?_
      have hset : Follows host e i₂ Any (Eval.setField k n.text w i₂.store)
          (onStore (Eval.setField k n.text w) i₂) :=
        .onStore (x := Eval.setField k n.text w) ⟨hi₂.setField k n.text hw, trivial⟩
      exact hset.bind fun _ i₃ hi₃ hmono _ => .pure hi₃ (Value.Linked.mono hmono hw)
    | _ => exact .throw hi₁ _
  | this line address =>
    refine .current hi ?_
    rw [hi.access]
    exact follows_read hi e _ address
  | lambda r => exact .current hi (follows_newFunction hi hi.linked)

/-- Statements follow if what is less deep does. A block is executed in a new environment, which is left at
its end. -/
theorem execute_succ (t : Stmt Address) (hi : Ready host e i) : Follows host e i LinkedOutcome
    (Treewalk.execute host (d + 1) e t i.store) (Interpreter.execute host (d + 1) t i) := by
  have hnormal : ∀ i₁, Ready host e i₁ → Follows host e i₁ LinkedOutcome
      ((Pure.pure .normal : Eval Outcome) i₁.store) ((Pure.pure .normal : Run Outcome) i₁) :=
    fun i₁ hi₁ => .pure hi₁ (linkedOutcome_normal _)
  unfold Treewalk.execute Interpreter.execute
  cases t with
  | expression x => exact (hd.evaluate x hi).bind fun v i₁ hi₁ _ _ => hnormal i₁ hi₁
  | print x =>
    refine (hd.evaluate x hi).bind fun v i₁ hi₁ _ _ => ?_
    have hprint : Follows host e i₁ Any (Eval.print v.display i₁.store)
        (onStore (Eval.print v.display) i₁) :=
      .onStore (x := Eval.print v.display) ⟨hi₁.of_frames rfl rfl hi₁.shown, trivial⟩
    exact hprint.bind fun _ i₂ hi₂ _ _ => hnormal i₂ hi₂
  | var n x =>
    have hdefine : ∀ v i₁, Ready host e i₁ → v.Linked i₁.enclosing → Follows host e i₁ LinkedOutcome
        ((do Eval.define e.own n.text v; return .normal : Eval Outcome) i₁.store)
        ((do let e ← current; onStore (Eval.define e.own n.text v); return .normal : Run Outcome) i₁) :=
      fun v i₁ hi₁ hv => .current hi₁
        ((follows_define e.own n.text hi₁ hv).bind fun _ i₂ hi₂ _ _ => hnormal i₂ hi₂)
    cases x with
    | none => exact hdefine .nil i hi trivial
    | some x => exact (hd.evaluate x hi).bind fun v i₁ hi₁ _ hv => hdefine v i₁ hi₁ hv
  -- The body runs within the new environment, and the current one is restored after it.
  | block ts =>
    refine .current hi ((follows_extend hi hi.linked fun n v hv => by cases hv).bind ?_)
    intro inner i₁ hi₁ _ hinner
    exact .within hi₁ (hd.inOrder ts (hi₁.enter hinner))
  | branch x t f =>
    refine (hd.evaluate x hi).bind fun v i₁ hi₁ _ _ => ?_
    cases v.isTruthy with
    | true => exact hd.execute t hi₁
    | false =>
      cases f with
      | none => exact hnormal i₁ hi₁
      | some f => exact hd.execute f hi₁
  | «while» x b => exact hd.loop x b host.rounds hi
  | function n r =>
    refine .current hi ?_
    refine (follows_newFunction hi hi.linked).bind fun f i₁ hi₁ _ hf => ?_
    exact (follows_define e.own n.text hi₁ hf).bind fun _ i₂ hi₂ _ _ => hnormal i₂ hi₂
  | «return» line x =>
    cases x with
    | none =>
      exact .pure hi (linkedOutcome_returned trivial)
    | some x =>
      exact (hd.evaluate x hi).bind fun v i₁ hi₁ _ hv => .pure hi₁ (linkedOutcome_returned hv)
  | «class» n ms =>
    refine .current hi ?_
    -- The methods of a class close over the current environment, which is linked.
    have hidentity : Follows host e i Any (Eval.newIdentity i.store) (onStore Eval.newIdentity i) :=
      .onStore (x := Eval.newIdentity) ⟨hi.of_frames rfl rfl hi.shown, trivial⟩
    refine hidentity.bind fun k i₁ hi₁ _ _ => ?_
    have hclass : (Value.class k ⟨n.text, methodTable e ms⟩).Linked i₁.enclosing :=
      fun name m hm => (History.mem_of_find?_methodTable hm).1 ▸ hi₁.linked
    exact (follows_define e.own n.text hi₁ hclass).bind fun _ i₂ hi₂ _ _ => hnormal i₂ hi₂

/-- Calls follow if what is less deep does. The environment of the caller is back at their end, also after
an error. -/
theorem call_succ {f : Value} {vs : List Value} (hi : Ready host e i) (hf : f.Linked i.enclosing)
    (hvs : ∀ a ∈ vs, a.Linked i.enclosing) : Follows host e i LinkedValue
      (Treewalk.call host (d + 1) f vs i.store) (Interpreter.call host (d + 1) f vs i) := by
  unfold Treewalk.call Interpreter.call
  cases f with
  | native k arity =>
    simp only
    cases hnative : host.natives[k]? with
    | none => exact .throw hi _
    | some native => exact follows_callNative k native hi hvs
  | function k c =>
    have hc : c.environment.Linked i.enclosing := hf
    refine (follows_extend hi hc fun n v hv => hvs v (mem_of_find?_parameterTable hv)).bind ?_
    -- The environment of the closure is linked, so the frame for the parameters may be the current one.
    intro inner i₁ hi₁ hmono hinner
    refine Follows.bind (x := Eval.inOrder _ _) (.within hi₁ (hd.inOrder _ (hi₁.enter hinner))) ?_
    intro outcome i₂ hi₂ _ houtcome
    cases c.isInitializer with
    | true =>
      rw [if_pos rfl, if_pos rfl]
      exact follows_read hi₂ _ _ _
    | false =>
      cases outcome with
      | returned v => exact .pure hi₂ (houtcome v rfl)
      | normal => exact .pure hi₂ trivial
  | «class» k c =>
    have hmethods : ∀ n m, c.methods.find? n = some m → m.environment.Linked i.enclosing := hf
    refine (follows_newObject hi hmethods).bind fun receiver i₁ hi₁ hmono₁ hreceiver => ?_
    cases hm : c.methods.find? initializerName with
    | none => exact .pure hi₁ hreceiver
    | some m =>
      refine (follows_bindMethod hi₁ ((hmethods _ m hm).mono hmono₁) hreceiver).bind ?_
      intro f i₂ hi₂ hmono₂ hf
      refine (hd.call hi₂ hf fun a ha => (hvs a ha).mono (hmono₁.trans hmono₂)).bind ?_
      exact fun _ i₃ hi₃ hmono₃ _ => .pure hi₃ (Value.Linked.mono (hmono₂.trans hmono₃) hreceiver)
  | _ => exact .throw hi _

end Keeps

/-- At every depth an interpreter follows a run. -/
theorem keeps (host : Host) (d : Nat) : Keeps host d := by
  -- On the depth: the parts of a node and the body of a call are run one level deeper.
  induction d with
  | zero => exact ⟨fun _ hi => .throw hi _, fun _ hi => .throw hi _, fun hi _ _ => .throw hi _⟩
  | succ d ih =>
    exact ⟨fun x hi => ih.evaluate_succ x hi, fun t hi => ih.execute_succ t hi,
      fun hi hf hvs => ih.call_succ hi hf hvs⟩

/-! ## Programs -/

/-- An outermost statement runs in the outermost environment. -/
theorem follows_runStatement (t : Stmt Address) (hi : Ready host (.outermost globalFrame) i) :
    Follows host (.outermost globalFrame) i
      (fun enclosing r => ∀ v, r = some v → v.Linked enclosing)
      (Treewalk.runStatement host d t i.store) (Interpreter.runStatement host d t i) := by
  have hd := keeps host d
  cases t with
  | expression x => exact (hd.evaluate x hi).map fun _ _ hv _ hr => Option.some.inj hr ▸ hv
  | _ => exact (hd.execute _ hi).bind fun _ i₁ hi₁ _ _ => .pure hi₁ fun v hv => by cases hv

/-- The value so far is what an empty rest of a program gives back. -/
theorem follows_foldlM (ts : List (Stmt Address)) (hi : Ready host (.outermost globalFrame) i)
    {last : Option Value} (hlast : ∀ v, last = some v → v.Linked i.enclosing) :
    Follows host (.outermost globalFrame) i
      (fun enclosing r => ∀ v, r = some v → v.Linked enclosing)
      (ts.foldlM (fun _ t => Treewalk.runStatement host d t) last i.store)
      (ts.foldlM (fun _ t => Interpreter.runStatement host d t) last i) := by
  induction ts generalizing i last with
  | nil => exact .pure hi hlast
  | cons t ts ih =>
    rw [List.foldlM_cons, List.foldlM_cons]
    exact (follows_runStatement t hi).bind fun r i₁ hi₁ _ hr => ih hi₁ hr

/-- In the global environment, an interpreter comes to the same as the run of a program. -/
theorem follows_runProgram (ts : List (Stmt Address)) (hi : Ready host (.outermost globalFrame) i) :
    Follows host (.outermost globalFrame) i
      (fun enclosing r => ∀ v, r = some v → v.Linked enclosing)
      (Treewalk.runProgram host d ts i.store) (Interpreter.runProgram host d ts i) :=
  follows_foldlM ts hi fun v hv => by cases hv

end Interpreter

end Treewalk
