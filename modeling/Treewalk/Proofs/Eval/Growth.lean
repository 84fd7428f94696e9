import Treewalk.Proofs.Eval.Ending
import Treewalk.Proofs.Eval.Preservation

/-!
# Growth

Stores grow in the course of a run: from the beginning of an activation to its end (`Stands.grows`), from
its beginning to that of whatever it leads to (`Stands.next`), and from the end of that to its own end
(`Stands.ends`). So a frame that holds a receiver holds it at all later times, and nothing else.
-/

namespace Treewalk

open Eval Activation

/-! ## What a step leaves -/

namespace Eval

variable {α β : Type} {x : Eval α} {s s₁ : Store}

/-- The store that a step leaves, whether it comes to its end or stops. -/
def leaves (x : Eval α) (s : Store) : Store :=
  match x s with
  | .ok _ s' | .error _ s' => s'

/-- A step that succeeds leaves the store it ends with. -/
theorem leaves_of_ok {a : α} (h : x s = .ok a s₁) : leaves x s = s₁ := by
  unfold leaves
  rw [h]

/-- A step that stops leaves the store it stopped with. -/
theorem leaves_of_error {stop : Stop} (h : x s = .error stop s₁) : leaves x s = s₁ := by
  unfold leaves
  rw [h]

/-- What becomes of a result does not touch the store. -/
theorem leaves_map (f : α → β) (x : Eval α) (s : Store) : leaves (f <$> x) s = leaves x s := by
  change leaves (EStateM.map f x) s = _
  unfold leaves EStateM.map
  cases x s <;> rfl

/-- After a step that succeeds the store is what the following steps leave. -/
theorem leaves_bind_of_ok {f : α → Eval β} {a : α} (h : x s = .ok a s₁) :
    leaves (x >>= f) s = leaves (f a) s₁ := by
  unfold leaves
  rw [bind_of_ok h]

/-- What a step leaves has grown when the steps after it are done, if it grows in them. -/
theorem grows_bind {f : α → Eval β} (h : ∀ a s₁, x s = .ok a s₁ → s₁.Grows (leaves (f a) s₁)) :
    (leaves x s).Grows (leaves (x >>= f) s) := by
  cases hx : x s with
  | ok a s₁ =>
    rw [leaves_of_ok hx, leaves_bind_of_ok hx]
    exact h a s₁ hx
  | error stop s₁ =>
    rw [leaves_of_error hx, leaves_of_error (bind_of_error hx)]
    exact .refl s₁

/-- A store that grows in a step grows in the steps after it. -/
theorem grows_then {f : α → Eval β} (hx : s.Grows (leaves x s))
    (hf : ∀ a s₁, x s = .ok a s₁ → s₁.Grows (leaves (f a) s₁)) : s.Grows (leaves (x >>= f) s) :=
  hx.trans (grows_bind hf)

/-- The line of a call changes nothing of what the call leaves. -/
theorem leaves_onLine (line : Int) (x : Eval Value) (s : Store) :
    leaves (onLine line x) s = leaves x s := by
  unfold leaves onLine
  cases x s with
  | ok v s₁ => rfl
  | error stop s₁ =>
    cases stop with
    | overflow line' => cases line' <;> rfl
    | _ => rfl

/-- An operator leaves the store alone. -/
theorem leaves_operator (line : Int) (r : Except OperandFault Value) (s : Store) :
    leaves (operator line r) s = s := by
  cases r <;> rfl

/-- Checking a call leaves the store alone. -/
theorem leaves_checkCall (line : Int) (f : Value) (count : Nat) (s : Store) :
    leaves (checkCall line f count) s = s := by
  unfold checkCall
  cases f.arity? with
  | none => rfl
  | some expected =>
    by_cases hcount : count = expected
    · simp only [hcount, if_true]
      rfl
    · simp only [hcount, if_false]
      rfl

/-- Reading a name leaves the store alone. -/
theorem leaves_read (e : Environment) (n : Name) (a : Address) (s : Store) :
    leaves (Eval.read e n a) s = s := by
  unfold leaves
  cases a with
  | global =>
    rw [read_global]
    cases s.frames.find? globalFrame n.text <;> rfl
  | scope k =>
    rw [read_scope]
    cases (e.ancestor? k).bind (s.frames.find? · n.text) <;> rfl

/-- A method that a native function asks for is bound before the request is answered, and the answer
changes no frame. -/
theorem respond_method {object : Given} {name : String} {i : Nat} {c : Class}
    {m : Closure} {f : Value} (hobject : named s object = .object i c)
    (hfield : s.fields.find? i name = none) (hm : c.methods.find? name = some m)
    (hf : bindMethod m (.object i c) s = .ok f s₁) :
    ∃ a s₂, respond (.property object name) s = .ok a s₂ ∧ s₁.Grows s₂ := by
  have hhas : hasProperty s (named s object) name = true := by
    rw [hobject]
    simp only [hasProperty, hm, Option.isSome_some, Bool.or_true]
  -- A property that is no field and is a method: reading it binds the method.
  have hproperty : property (named s object) ⟨name, 0⟩ s = .ok f s₁ := by
    rw [hobject, property_object, hfield]
    simp only [hm]
    exact hf
  have hanswer : answer (.property object name) s = reveal f s₁ :=
    (answer_property hhas).trans (bind_of_ok hproperty)
  exact ⟨_, _, bind_of_ok hanswer, .of_frames rfl (Nat.le_refl _)⟩

end Eval

/-- What the statements of a program leave does not depend on the values before them. -/
theorem leaves_foldlM_runStatement (host : Host) (d : Nat) (ts : List (Stmt Address))
    (r r' : Option Value) (s : Store) :
    leaves (ts.foldlM (fun _ t => runStatement host d t) r) s =
      leaves (ts.foldlM (fun _ t => runStatement host d t) r') s := by
  cases ts <;> rfl

namespace Activation

variable (host : Host) (d : Nat) (e : Environment) (s : Store)

/-- The store that an activation leaves. -/
def final (host : Host) (a : Activation) : Store := leaves (a.run host) a.store

/-- At the end of an expression the store is what evaluating leaves. -/
theorem final_expression (x : Expr Address) :
    (node d e (.expression x) s).final host = leaves (evaluate host d e x) s := leaves_map _ _ _

/-- The same for arguments. -/
theorem final_arguments (xs : List (Expr Address)) :
    (node d e (.arguments xs) s).final host = leaves (xs.mapM (evaluate host d e)) s :=
  leaves_map _ _ _

/-- The same for a statement. -/
theorem final_statement (t : Stmt Address) :
    (node d e (.statement t) s).final host = leaves (execute host d e t) s := leaves_map _ _ _

/-- The same for a body. -/
theorem final_body (ts : List (Stmt Address)) :
    (node d e (.body ts) s).final host = leaves (inOrder (execute host d e) ts) s := leaves_map _ _ _

/-- The same for a loop. -/
theorem final_loop (n : Nat) (x : Expr Address) (b : Stmt Address) :
    (Activation.loop n d e x b s).final host =
      leaves (Eval.loop (round (evaluate host d e x) (execute host d e b)) n) s := leaves_map _ _ _

/-- The same for a call. -/
theorem final_call (f : Value) (vs : List Value) :
    (Activation.call d f vs s).final host = leaves (Treewalk.call host d f vs) s := leaves_map _ _ _

/-- The same for the binding of a method. -/
theorem final_bind (m : Closure) (receiver : Value) :
    (Activation.bind m receiver s).final host = leaves (bindMethod m receiver) s := leaves_map _ _ _

/-- The same for a program. -/
theorem final_program (ts : List (Stmt Address)) :
    (Activation.program d ts s).final host = leaves (runProgram host d ts) s := leaves_map _ _ _

end Activation

namespace History

variable {h : History} {host : Host} {W W' W₁ : World} {s s₁ : Store} {e : Environment} {d : Nat}
  {a b : Activation}

/-- What leads anywhere grows the store, also if it stops on the way. -/
theorem Leads.grows {α : Type} {fresh : FrameId → String → Prop} {good : World → Store → α → Prop}
    {x : Eval α} (hx : h.Leads host W s fresh good (x s₁)) : s.Grows (leaves x s₁) := by
  cases hr : x s₁ with
  | ok v s' =>
    rw [hr] at hx
    obtain ⟨W', hl, -⟩ := hx
    rw [leaves_of_ok hr]
    exact hl.grows
  | error stop s' =>
    rw [hr] at hx
    obtain ⟨-, W', hl⟩ := hx
    rw [leaves_of_error hr]
    exact hl.grows

namespace Stands

/-- The store grows from the beginning of an activation to its end. -/
theorem grows (hs : h.Stands host W a) : a.store.Grows (a.final host) := by
  -- A run leads from a good store only to stores that have grown, as `keeps` says for each kind of code.
  have hd := keeps h host
  cases a with
  | node d e node s =>
    cases node with
    | expression x =>
      rw [final_expression]
      exact ((hd d).evaluate hs).grows
    | arguments xs =>
      rw [final_arguments]
      exact ((hd d).arguments hs).grows
    | statement t =>
      rw [final_statement]
      exact ((hd d).execute hs).grows
    | body ts =>
      rw [final_body]
      exact ((hd d).body hs).grows
    | routine kind r => exact .refl s
    | methods ms => exact .refl s
  | loop n d e x b s =>
    rw [final_loop]
    exact ((hd d).loop hs).grows
  | call d f vs s =>
    rw [final_call]
    exact ((hd d).call hs).grows
  | bind m receiver s =>
    obtain ⟨W', i, s', hbind, hl, -⟩ := hs.proper.1.bind hs.good hs.proper.2.1 hs.happens
    have hleaves : leaves (bindMethod m receiver) s = s' := leaves_of_ok hbind
    rw [final_bind, hleaves]
    exact hl.grows
  | program d ts s =>
    rw [final_program]
    exact hs.runProgram.grows

/-! ### What an activation leads to -/

/-- What comes next leaves a store that has grown. -/
theorem grows_next (hs : h.Stands host W a) (hc : Calls host a b) : b.store.Grows (b.final host) := by
  obtain ⟨W', -, -, hb⟩ := hs.next hc
  exact hb.grows

/-- The store grows while an expression is evaluated that an activation leads to. -/
theorem grows_evaluate (hs : h.Stands host W a) {x : Expr Address}
    (hc : Calls host a (.node d e (.expression x) s₁)) : s₁.Grows (leaves (evaluate host d e x) s₁) := by
  rw [← final_expression]
  exact hs.grows_next hc

/-- The store grows while a statement is executed that an activation leads to. -/
theorem grows_execute (hs : h.Stands host W a) {t : Stmt Address}
    (hc : Calls host a (.node d e (.statement t) s₁)) : s₁.Grows (leaves (execute host d e t) s₁) := by
  rw [← final_statement]
  exact hs.grows_next hc

/-- The store grows in a call that an activation leads to. -/
theorem grows_call (hs : h.Stands host W a) {f : Value} {vs : List Value}
    (hc : Calls host a (.call d f vs s₁)) : s₁.Grows (leaves (call host d f vs) s₁) := by
  rw [← final_call]
  exact hs.grows_next hc

/-- A store grows when a value is assigned. -/
theorem grows_write {n : Name} {address : Address} {x : Expr Address} {v : Value}
    (hs : h.Stands host W (.node (d + 1) e (.expression (.assign n address x)) s))
    (hx : evaluate host d e x s = .ok v s₁) : s₁.Grows (leaves (host.access.write e n address v) s₁) := by
  obtain ⟨W₁, -, -, hwrite⟩ := (keeps h host d).assign hs hx
  exact hwrite.grows

/-- A store grows when a property is read: a method is bound in a frame of its own. -/
theorem grows_property {x : Expr Address} {n : Name} {v : Value}
    (hs : h.Stands host W (.node (d + 1) e (.expression (.get x n)) s))
    (hx : evaluate host d e x s = .ok v s₁) : s₁.Grows (leaves (property v n) s₁) := by
  obtain ⟨W₁, -, hproperty⟩ := (keeps h host d).property hs hx
  exact hproperty.grows

/-- A store grows when a value is called with arguments. -/
theorem grows_calling {x : Expr Address} {line : Int} {xs : List (Expr Address)} {f : Value}
    {vs : List Value} {s₂ : Store} (hs : h.Stands host W (.node (d + 1) e (.expression (.call x line xs)) s))
    (hx : evaluate host d e x s = .ok f s₁) (hxs : xs.mapM (evaluate host d e) s₁ = .ok vs s₂) :
    s₂.Grows (leaves (do checkCall line f vs.length; onLine line (call host d f vs)) s₂) := by
  refine grows_then ?_ fun u s₃ hcheck => ?_
  · rw [leaves_checkCall]
    exact .refl _
  · rw [leaves_onLine]
    exact hs.grows_call (.called hx hxs hcheck)

/-- From the end of a part of an expression to the end of the expression. -/
theorem ends_expression {x : Expr Address} (hs : h.Stands host W (.node (d + 1) e (.expression x) s))
    (hc : Calls host (.node (d + 1) e (.expression x) s) b) :
    (b.final host).Grows (leaves (evaluate host (d + 1) e x) s) := by
  -- When the part is done, what is left of the expression is either more parts, in which the store grows,
  -- or a step that adds to the store at most a field.
  unfold evaluate
  cases hc with
  | grouping =>
    rw [final_expression]
    exact .refl _
  | unary =>
    rw [final_expression]
    refine grows_bind fun v s₁ hx => ?_
    rw [leaves_operator]
    exact .refl _
  | left =>
    rw [final_expression]
    refine grows_bind fun v s₁ hx => grows_then (hs.grows_evaluate (.right hx)) fun w s₂ hy => ?_
    rw [leaves_operator]
    exact .refl _
  | right hx =>
    rw [final_expression, leaves_bind_of_ok hx]
    refine grows_bind fun w s₂ hy => ?_
    rw [leaves_operator]
    exact .refl _
  | @first d e op x y s =>
    rw [final_expression]
    refine grows_bind fun v s₁ hx => ?_
    cases hdecided : op.isDecided v with
    | true => exact .refl _
    | false => exact hs.grows_evaluate (.second hx hdecided)
  | second hx hdecided =>
    rw [final_expression, leaves_bind_of_ok hx, hdecided]
    exact .refl _
  | assigned =>
    rw [final_expression]
    exact grows_bind fun v s₁ hx => grows_then (hs.grows_write hx) fun _ s₂ _ => .refl s₂
  | callee =>
    rw [final_expression]
    refine grows_bind fun f s₁ hx => grows_then ?_ fun vs s₂ hxs => hs.grows_calling hx hxs
    rw [← final_arguments]
    exact hs.grows_next (.arguments hx)
  | arguments hx =>
    rw [final_arguments, leaves_bind_of_ok hx]
    exact grows_bind fun vs s₂ hxs => hs.grows_calling hx hxs
  | called hx hxs hcheck =>
    rw [final_call, leaves_bind_of_ok hx, leaves_bind_of_ok hxs, leaves_bind_of_ok hcheck, leaves_onLine]
    exact .refl _
  | object =>
    rw [final_expression]
    exact grows_bind fun v s₁ hx => hs.grows_property hx
  | bound hx hfield hm =>
    rw [final_bind, leaves_bind_of_ok hx]
    unfold leaves
    rw [property_object, hfield]
    simp only [hm]
    exact .refl _
  | target =>
    rw [final_expression]
    refine grows_bind fun v s₁ hx => ?_
    cases v with
    | object i c =>
      exact grows_then (hs.grows_evaluate (.stored hx)) fun w s₂ hy => .setField s₂ i _ w
    | _ => exact .refl s₁
  | stored hx =>
    rw [final_expression, leaves_bind_of_ok hx]
    exact grows_bind fun w s₂ hy => .setField s₂ _ _ w

/-- The own frame of a declaration holds no receiver, so the store grows when the name is bound. -/
theorem grows_define {n : Name} {x : Expr Address} {v : Value}
    (hs : h.Stands host W (.node (d + 1) e (.statement (.var n (some x))) s))
    (hx : evaluate host d e x s = .ok v s₁) : s₁.Grows (s₁.withName e.own n.text v) := by
  have hvalue := (keeps h host d).evaluate (hs.of_statement .initializer rfl (.refl hs.good))
  obtain ⟨W₁, hl, -⟩ := hvalue.ok hx
  obtain ⟨p, u, hu, hat⟩ := hs.exists_statement
  have hn : n.text ∈ u.declared := by
    rw [← u.declared_resolve p.scoping, ← hu]
    exact List.mem_singleton_self _
  have hat₁ := hat.later hs.good hl
  exact .withName (hat₁.own_lt hl.good) (hat₁.own hl.good hn).1 v

/-- From the end of a part of a statement to the end of the statement. -/
theorem ends_statement {t : Stmt Address} (hs : h.Stands host W (.node (d + 1) e (.statement t) s))
    (hc : Calls host (.node (d + 1) e (.statement t) s) b) :
    (b.final host).Grows (leaves (execute host (d + 1) e t) s) := by
  -- Only the declaration of a variable does more than its parts once the value is there.
  unfold execute
  cases hc with
  | expression | returned =>
    rw [final_expression]
    exact grows_bind fun v s₁ hx => .refl s₁
  | print =>
    rw [final_expression]
    exact grows_bind fun v s₁ hx => .of_frames rfl (Nat.le_refl _)
  | initializer =>
    rw [final_expression]
    exact grows_bind fun v s₁ hx => hs.grows_define hx
  | block =>
    rw [final_body]
    exact .refl _
  | @condition d e x t f s =>
    rw [final_expression]
    refine grows_bind fun v s₁ hx => ?_
    cases htruthy : v.isTruthy with
    | true => exact hs.grows_execute (.onTrue hx htruthy)
    | false =>
      cases f with
      | none => exact .refl s₁
      | some f => exact hs.grows_execute (.onFalse hx htruthy)
  | onTrue hx hv | onFalse hx hv =>
    rw [final_statement, leaves_bind_of_ok hx, hv]
    exact .refl _
  | loop =>
    rw [final_loop]
    exact .refl _

/-- A store grows in the rounds of a loop after one that came to its end. -/
theorem grows_round {n : Nat} {x : Expr Address} {t : Stmt Address}
    (hs : h.Stands host W (.loop (n + 1) d e x t s)) :
    (leaves (round (evaluate host d e x) (execute host d e t)) s).Grows
      (leaves (Eval.loop (round (evaluate host d e x) (execute host d e t)) (n + 1)) s) := by
  unfold Eval.loop
  refine grows_bind fun r s₂ hr => ?_
  -- The round was the last one, or the loop goes on.
  cases r with
  | none => exact .refl s₂
  | some outcome =>
    cases outcome with
    | returned v => exact .refl s₂
    | normal =>
      obtain ⟨v, s₁, hx, hv, ht⟩ := round_eq_some.1 hr
      show s₂.Grows (leaves (Eval.loop _ n) s₂)
      rw [← final_loop]
      exact hs.grows_next (.loopAgain hx hv ht)

/-- From the end of a condition, a body or the remaining rounds to the end of a loop. -/
theorem ends_loop {n : Nat} {x : Expr Address} {t : Stmt Address}
    (hs : h.Stands host W (.loop n d e x t s)) (hc : Calls host (.loop n d e x t s) b) :
    (b.final host).Grows
      (leaves (Eval.loop (round (evaluate host d e x) (execute host d e t)) n) s) := by
  cases hc with
  -- After the condition comes the body, unless the condition is false, and then the other rounds.
  | loopCondition =>
    rw [final_expression]
    refine .trans (grows_bind fun v s₁ hx => ?_) hs.grows_round
    cases htruthy : v.isTruthy with
    | false => exact .refl s₁
    | true =>
      rw [if_pos rfl, leaves_map]
      exact hs.grows_execute (.loopBody hx htruthy)
  -- After the body come the other rounds.
  | loopBody hx hv =>
    rw [final_statement]
    refine .trans ?_ hs.grows_round
    unfold Eval.round
    rw [leaves_bind_of_ok hx, if_pos hv, leaves_map]
    exact .refl _
  -- The remaining rounds are the last thing of a loop.
  | @loopAgain n d e x t s v s₁ s₂ hx hv ht =>
    have hround := round_eq_some.2 ⟨v, s₁, hx, hv, ht⟩
    have hleaves : leaves (Eval.loop (round (evaluate host d e x) (execute host d e t)) (n + 1)) s =
        leaves (Eval.loop (round (evaluate host d e x) (execute host d e t)) n) s₂ :=
      leaves_bind_of_ok hround
    rw [final_loop, hleaves]
    exact .refl _

/-- From the end of a statement to the end of the body. -/
theorem ends_body {ts : List (Stmt Address)} (hs : h.Stands host W (.node d e (.body ts) s))
    (hc : Calls host (.node d e (.body ts) s) b) :
    (b.final host).Grows (leaves (inOrder (execute host d e) ts) s) := by
  cases hc with
  | statement =>
    rw [final_statement]
    unfold inOrder
    refine grows_bind fun outcome s₁ ht => ?_
    -- The statement was the last one, or the body goes on.
    cases outcome with
    | returned v => exact .refl s₁
    | normal =>
      show s₁.Grows (leaves (inOrder _ _) s₁)
      rw [← final_body]
      exact hs.grows_next (.laterStatements ht)
  | @laterStatements d e t ts s s₁ ht =>
    have hleaves : leaves (inOrder (execute host d e) (t :: ts)) s =
        leaves (inOrder (execute host d e) ts) s₁ := leaves_bind_of_ok ht
    rw [final_body, hleaves]
    exact .refl _

/-- From the end of an argument to the end of the arguments. -/
theorem ends_arguments {xs : List (Expr Address)} (hs : h.Stands host W (.node d e (.arguments xs) s))
    (hc : Calls host (.node d e (.arguments xs) s) b) :
    (b.final host).Grows (leaves (xs.mapM (evaluate host d e)) s) := by
  cases hc with
  | argument =>
    rw [final_expression, List.mapM_cons]
    refine grows_bind fun v s₁ hx => grows_then ?_ fun vs s₂ _ => .refl s₂
    rw [← final_arguments]
    exact hs.grows_next (.laterArguments hx)
  | laterArguments hx =>
    rw [final_arguments, List.mapM_cons, leaves_bind_of_ok hx]
    exact grows_bind fun vs s₂ _ => .refl s₂

/-- When a method that a native function asks for is bound, what is left of the work is done. -/
theorem ends_native {i arity : Nat} {vs : List Value} {native : Native} {m : Closure} {receiver : Value}
    {s₂ : Store} (hs : h.Stands host W (.call (d + 1) (.native i arity) vs s))
    (hnative : host.natives[i]? = some native) (hs₁ : announce i vs s = .ok () s₁)
    (hbind : (native s₁.events).Binds s₁ m receiver s₂) :
    (leaves (bindMethod m receiver) s₂).Grows (leaves (Eval.callNative i native vs) s) := by
  obtain ⟨object, name, next, j, c, hreaches, hobject, rfl, hfield, hm⟩ := hbind
  cases hf : bindMethod m (.object j c) s₂ with
  | error stop s₃ => cases hf
  | ok f s₃ =>
    -- The answer to the request comes after the binding, and the rest of the work after the answer.
    obtain ⟨a, s₄, hrespond, hgrows⟩ := respond_method hobject hfield hm hf
    have hrest : (native s₁.events).Reaches s₁ (next a) s₄ :=
      hreaches.trans (.answered hrespond (.refl _ _))
    obtain ⟨W₄, hl₄, hwork⟩ := hs.rest hnative hs₁ hrest
    have hleaves : leaves (Eval.callNative i native vs) s = leaves (perform (next a)) s₄ := by
      refine (leaves_bind_of_ok hs₁).trans ?_
      show leaves (perform (native s₁.events)) s₁ = _
      unfold leaves
      rw [hrest.perform_eq]
    rw [leaves_of_ok hf, hleaves]
    exact hgrows.trans hwork.grows

/-- From the end of a body, an initializer or a binding to the end of the call. -/
theorem ends_call {f : Value} {vs : List Value} (hs : h.Stands host W (.call (d + 1) f vs s))
    (hc : Calls host (.call (d + 1) f vs s) b) :
    (b.final host).Grows (leaves (call host (d + 1) f vs) s) := by
  -- After the body comes at most the read of the receiver.
  unfold call
  cases hc with
  | @routine d i c vs s =>
    rw [final_body]
    refine grows_bind (x := inOrder _ _) fun outcome s₁ _ => ?_
    cases c.isInitializer with
    | true =>
      rw [if_pos rfl, leaves_read]
      exact .refl s₁
    | false => cases outcome <;> exact .refl s₁
  | initializerBound hobject hm =>
    rw [final_bind, leaves_bind_of_ok hobject]
    simp only [hm]
    refine grows_bind fun f s₂ hbind => grows_then ?_ fun _ s₃ _ => .refl s₃
    exact hs.grows_call (.initializerCalled hobject hm hbind)
  | initializerCalled hobject hm hbind =>
    rw [final_call, leaves_bind_of_ok hobject]
    simp only [hm]
    rw [leaves_bind_of_ok hbind]
    exact grows_bind fun _ s₃ _ => .refl s₃
  | fetched hnative hs₁ hbind =>
    rw [final_bind]
    simp only [hnative]
    exact hs.ends_native hnative hs₁ hbind

/-- From the end of an outermost statement to the end of the program. -/
theorem ends_program {ts : List (Stmt Address)} (hs : h.Stands host W (.program d ts s))
    (hc : Calls host (.program d ts s) b) :
    (b.final host).Grows (leaves (Treewalk.runProgram host d ts) s) := by
  -- After the first statement come the others, whatever its value is.
  have hrest : ∀ t ts' (hts : ts = t :: ts'),
      (leaves (Treewalk.runStatement host d t) s).Grows (leaves (Treewalk.runProgram host d ts) s) := by
    rintro t ts' rfl
    unfold Treewalk.runProgram
    rw [List.foldlM_cons]
    refine grows_bind fun r s₁ ht => ?_
    rw [leaves_foldlM_runStatement host d ts' r none s₁]
    show s₁.Grows (leaves (Treewalk.runProgram host d ts') s₁)
    rw [← final_program]
    exact hs.grows_next (.laterOutermost ht)
  cases hc with
  | outermostExpression =>
    refine .trans ?_ (hrest _ _ rfl)
    rw [final_expression]
    unfold Treewalk.runStatement
    rw [leaves_map]
    exact .refl _
  | @outermostStatement d t ts s ht =>
    refine .trans ?_ (hrest _ _ rfl)
    rw [final_statement]
    cases t with
    | expression x => exact absurd rfl (ht x)
    | _ => exact grows_bind fun _ s₁ _ => .refl s₁
  | laterOutermost ht =>
    rw [final_program]
    unfold Treewalk.runProgram
    rw [List.foldlM_cons, leaves_bind_of_ok ht, leaves_foldlM_runStatement host d _ none]
    exact .refl _

/-- The store grows from the end of what an activation leads to to the end of the activation. -/
theorem ends (hs : h.Stands host W a) (hc : Calls host a b) : (b.final host).Grows (a.final host) := by
  -- With no depth left, an expression, a statement or a call begins nothing.
  cases a with
  | node d e node s =>
    cases node with
    | expression x =>
      cases d with
      | zero => cases hc
      | succ d =>
        rw [final_expression _ (d + 1)]
        exact hs.ends_expression hc
    | arguments xs =>
      rw [final_arguments _ d]
      exact hs.ends_arguments hc
    | statement t =>
      cases d with
      | zero => cases hc
      | succ d =>
        rw [final_statement _ (d + 1)]
        exact hs.ends_statement hc
    | body ts =>
      rw [final_body _ d e s ts]
      exact hs.ends_body hc
    | routine kind r => cases hc
    | methods ms => cases hc
  | loop n d e x t s =>
    rw [final_loop _ d e s n]
    exact hs.ends_loop hc
  | call d f vs s =>
    cases d with
    | zero => cases hc
    | succ d =>
      rw [final_call _ (d + 1)]
      exact hs.ends_call hc
  | bind m receiver s => cases hc
  | program d ts s =>
    rw [final_program _ d s ts]
    exact hs.ends_program hc

/-! ### Initializers -/

/-- An initializer finds the instance through which it was fetched, at all later times. -/
theorem reads_receiver (hall : h.AllStand) {i : Nat} {c : Closure} {vs : List Value}
    (hs : h.Stands host W (.call d (.function i c) vs s))
    (hc : c.isInitializer = true) (hgrows : s.Grows s₁) :
    ∃ m j k f, c = { m with environment := m.environment.extend f } ∧ h.Bound s₁ m (.object j k) f ∧
      read c.environment ⟨thisName, 0⟩ (.scope 0) s₁ = .ok (.object j k) s₁ := by
  obtain ⟨p, kind, r, -, -, hinit, hfetched, -⟩ := hs.proper.1
  -- Functions that are initializers were fetched, so a frame for the receiver is around them.
  have hkind : kind = .initializer := of_decide_eq_true (hinit.symm.trans hc)
  obtain ⟨m, receiver, f, rfl, hbound⟩ := hfetched (by rw [hkind]; exact RoutineKind.noConfusion)
  obtain ⟨bindHost, s₀, hhappens, -⟩ := hbound.happened
  obtain ⟨W₀, hbind⟩ := hall _ _ hhappens
  obtain ⟨j, k, rfl⟩ := hbind.proper.2.2
  have hbound' := hbound.mono hgrows
  have hown : (m.environment.extend f).ancestor? 0 = some f := rfl
  refine ⟨m, j, k, f, rfl, hbound', ?_⟩
  rw [read_scope, hown, Option.bind_some, hbound'.held]

/-- The store has grown when the body of a function is done. -/
theorem grows_body {i : Nat} {c : Closure} {vs : List Value} {outcome : Outcome}
    (hs : h.Stands host W (.call (d + 1) (.function i c) vs s))
    (hbody : inOrder (execute host d (c.environment.extend s.frames.next)) c.routine.body
      (s.withFrame (parameterTable c.routine.parameters vs)) = .ok outcome s₁) : s.Grows s₁ := by
  obtain ⟨W₁, hl₁, hstands⟩ := hs.of_routine
  obtain ⟨W₂, hl₂, -⟩ := ((keeps h host d).body hstands).ok hbody
  exact hl₁.grows.trans hl₂.grows

end Stands

end History

end Treewalk
