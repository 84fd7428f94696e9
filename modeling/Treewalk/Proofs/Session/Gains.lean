import Treewalk.Proofs.Eval.Growth
import Treewalk.Proofs.Session.Mirror

/-!
# How names get into frames

A frame gets the names of its table when it is made: the parameters of a routine, or the receiver of a
method. Later it gets the names of the declarations that are executed in it. There is one more way: an
assignment in the initializer of a local variable may bind the name of the variable before the
declaration does (`History.Early`). Whatever else happens in a run, it binds no name that was not bound
(`History.accounts`).
-/

namespace Treewalk

open Eval Activation

namespace History

/-! ## Gains -/

section

variable (h : History) (host : Host)

/-- An assignment binds a name in a frame before its declaration does: it lies in the initializer of a
local variable of this name, and the declaration was begun on the frame but has not come to its end. -/
inductive Early : Activation → FrameId → String → Prop
  | assigned {d e n k x s a v f} {s₁ : Store} (hx : evaluate host d e x s = .ok a s₁)
    (hwrite : host.access.write e n (.scope k) a s₁ = .ok () (s₁.withName f n.text a))
    (hnew : ¬s₁.Binds f n.text) (hvisits : h.visits v)
    (hresolved : v.resolved = .expression (.assign n (.scope k) x)) (hfound : h.Found v e n.text k f)
    (hunfinished : h.Unfinished Visit.Reaches v n.text k f s₁) :
    Early (.node (d + 1) e (.expression (.assign n (.scope k) x)) s) f n.text

/-- An activation itself binds a name in a frame, where the name was not bound: as a declaration that is
executed in the frame, in the frame that it makes for the body of a function or for a receiver, or
early. -/
inductive Gains : Activation → FrameId → String → Prop
  | declared {d e s n v} {t : Stmt Address} {s₁ : Store} (hn : n ∈ t.declared)
    (ht : execute host d e t s = .ok .normal (s₁.withName e.own n v)) (hnew : ¬s₁.Binds e.own n) :
    Gains (.node d e (.statement t) s) e.own n
  | parameter {d i c vs n} {s : Store} (hn : n ∈ c.routine.parameters.map Name.text) :
    Gains (.call (d + 1) (.function i c) vs s) s.frames.next n
  | receiver {m receiver} {s : Store} : Gains (.bind m receiver s) s.frames.next thisName
  | early {b f n} (hearly : h.Early host b f n) : Gains b f n

/-- Every name that is bound in one store, but not in an earlier one, was bound by an activation that the
given one leads to. -/
def Accounts (a : Activation) (s s' : Store) : Prop :=
  ∀ f n, s'.Binds f n → s.Binds f n ∨ ∃ b, a.LeadsTo host b ∧ h.Gains host b f n

end

variable {h : History} {host : Host} {W : World} {s s' s₁ s₂ : Store} {e : Environment} {d : Nat}
  {a b : Activation}

namespace Accounts

/-- Nothing is to be accounted for where nothing happened. -/
theorem refl (s : Store) : h.Accounts host a s s := fun _ _ hb => .inl hb

/-- Two parts of a run are accounted for one after the other. -/
theorem trans (h₁ : h.Accounts host a s s₁) (h₂ : h.Accounts host a s₁ s₂) :
    h.Accounts host a s s₂ := fun f n hb => (h₂ f n hb).elim (h₁ f n) .inr

/-- Where no frame changes there is nothing to account for. -/
theorem of_frames (hframes : s'.frames = s.frames) : h.Accounts host a s s' := fun f n hb => by
  unfold Store.Binds at hb
  rw [hframes] at hb
  exact .inl hb

/-- What is accounted for by a part is accounted for by the whole. -/
theorem of_calls (hc : Calls host a b) (hb : h.Accounts host b s s') : h.Accounts host a s s' :=
  fun f n hn => (hb f n hn).imp_right fun ⟨c, hbc, hgains⟩ => ⟨c, .head hc hbc, hgains⟩

/-- A name that is bound is accounted for if it was bound before or the activation itself binds it. -/
theorem withName {f : FrameId} {n : String} (v : Value)
    (hgains : ¬s.Binds f n → h.Gains host a f n) : h.Accounts host a s (s.withName f n v) := by
  rintro f' n' ⟨v', hv'⟩
  rcases s.frames.find?_put_cases hv' with ⟨rfl, rfl, -⟩ | hv'
  · by_cases hb : s.Binds f' n'
    · exact .inl hb
    · exact .inr ⟨a, .refl, hgains hb⟩
  · exact .inl ⟨v', hv'⟩

/-- A frame that is added is accounted for if the activation itself binds the names of its table. -/
theorem withFrame {table : Bindings Value}
    (hgains : ∀ n v, table.find? n = some v → h.Gains host a s.frames.next n) :
    h.Accounts host a s (s.withFrame table) := by
  intro f n hb
  by_cases hf : f = s.frames.next
  · subst hf
    obtain ⟨v, hv⟩ := Store.binds_newFrame.1 hb
    exact .inr ⟨a, .refl, hgains n v hv⟩
  · exact .inl ((Store.binds_oldFrame hf).1 hb)

variable {α β : Type} {x : Eval α} {f : α → Eval β}

/-- What a step and the steps after it leave is accounted for if each part is. -/
theorem bind (hx : h.Accounts host a s (leaves x s))
    (hf : ∀ v s₁, x s = .ok v s₁ → h.Accounts host a s₁ (leaves (f v) s₁)) :
    h.Accounts host a s (leaves (x >>= f) s) := by
  cases hr : x s with
  | ok v s₁ =>
    rw [leaves_of_ok hr] at hx
    rw [leaves_bind_of_ok hr]
    exact hx.trans (hf v s₁ hr)
  | error stop s₁ =>
    rw [leaves_of_error hr] at hx
    rw [leaves_of_error (bind_of_error hr)]
    exact hx

end Accounts

/-! ### What an activation does itself -/

/-- An assignment binds no name but early. -/
theorem Stands.accounts_write (hall : h.AllStand) {n : Name} {address : Address} {x : Expr Address}
    {v : Value}
    (hs : h.Stands host W (.node (d + 1) e (.expression (.assign n address x)) s))
    (hx : evaluate host d e x s = .ok v s₁) :
    h.Accounts host (.node (d + 1) e (.expression (.assign n address x)) s) s₁
      (leaves (host.access.write e n address v) s₁) := by
  have hgood : h.Good host W s := hs.good
  cases address with
  | global =>
    -- A global name is assigned to only if it is bound.
    rw [hgood.access]
    show h.Accounts host _ s₁ (leaves (Eval.write e n .global v) s₁)
    cases hold : s₁.frames.find? globalFrame n.text with
    | none =>
      have hwrite : Eval.write e n .global v s₁ = _ := write_global e n v s₁
      rw [hold] at hwrite
      rw [leaves_of_error hwrite]
      exact .refl s₁
    | some old =>
      have hwrite : Eval.write e n .global v s₁ = _ := write_global e n v s₁
      rw [hold] at hwrite
      rw [leaves_of_ok hwrite]
      exact .withName v fun hnew => absurd ⟨old, hold⟩ hnew
  | scope k =>
    -- A local name need not be: the frame is the right one, but the declaration may not have come to
    -- its end there.
    obtain ⟨u, halign⟩ := hs.aligned hall
    obtain ⟨f, hfound, hwrite, hbound⟩ := halign.written n k x v s₁ rfl hx
    rw [leaves_of_ok hwrite]
    refine .withName v fun hnew => .early ?_
    exact .assigned hx hwrite hnew halign.visited halign.resolved hfound (hbound.resolve_left hnew)

/-- A declaration accounts for the name that it binds. -/
theorem accounts_define {t : Stmt Address} {n : String} {v : Value} (hn : n ∈ t.declared)
    (ht : execute host d e t s = .ok .normal (s₁.withName e.own n v)) :
    h.Accounts host (.node d e (.statement t) s) s₁ (s₁.withName e.own n v) :=
  .withName v fun hnew => .declared hn ht hnew

/-- The read of a property binds no name but that of the receiver, in the frame that a method is bound
in. -/
theorem accounts_property {v : Value} {n : Name}
    (hbind : ∀ i c m, v = .object i c → s.fields.find? i n.text = none → c.methods.find? n.text = some m →
      h.Accounts host a s (leaves (bindMethod m v) s)) :
    h.Accounts host a s (leaves (property v n) s) := by
  cases v with
  -- A field is read; only a method is bound, and that is accounted for.
  | object i c =>
    cases hfield : s.fields.find? i n.text with
    | some field =>
      have hread : property (.object i c) n s = .ok field s := by rw [property_object, hfield]
      rw [leaves_of_ok hread]
      exact .refl s
    | none =>
      cases hm : c.methods.find? n.text with
      | none =>
        have hnone : property (.object i c) n s = _ := property_object n s i c
        rw [hfield, hm] at hnone
        rw [leaves_of_error hnone]
        exact .refl s
      | some m =>
        have hleaves : leaves (property (.object i c) n) s = leaves (bindMethod m (.object i c)) s := by
          unfold leaves
          rw [property_object, hfield, hm]
        rw [hleaves]
        exact hbind i c m rfl hfield hm
  | _ => exact .refl s

/-- What a native function asks for binds no name but those of receivers. -/
theorem accounts_answer {r : Request} {next : Answer → Work}
    (hbinds : ∀ m receiver s', (Work.ask r next).Binds s m receiver s' →
      h.Accounts host a s' (leaves (bindMethod m receiver) s')) :
    h.Accounts host a s (leaves (answer r) s) := by
  cases r with
  | property object name =>
    cases hp : hasProperty s (named s object) name with
    | false =>
      rw [leaves_of_ok (answer_noProperty hp)]
      exact .refl s
    -- An answer reads the property and remembers what it shows; the second changes no frame.
    | true =>
      have hleaves : leaves (answer (.property object name)) s =
          leaves (property (named s object) ⟨name, 0⟩ >>= reveal) s := by
        unfold leaves
        rw [answer_property hp]
      rw [hleaves]
      refine .bind (accounts_property fun i c m hobject hfield hm => ?_) fun v s₁ _ => .of_frames rfl
      exact hbinds m _ s ⟨object, name, next, i, c, .refl _ _, rfl, hobject, hfield, hm⟩
  -- Other requests change no frame.
  | setField object name value =>
    rcases answer_setField object value name s with ⟨i, c, -, hanswer⟩ | hanswer
    · exact .of_frames (by rw [leaves_of_ok hanswer])
    · exact .of_frames (by rw [leaves_of_ok hanswer])
  | newObject c =>
    rcases answer_newObject c s with ⟨i, k, -, hanswer⟩ | hanswer
    · exact .of_frames (by rw [leaves_of_ok hanswer])
    · exact .of_frames (by rw [leaves_of_ok hanswer])
  | same | newClass | print => exact .of_frames rfl

/-- The work of a native function binds no name but those of receivers. -/
theorem accounts_perform {w : Work} (hbinds : ∀ m receiver s', w.Binds s m receiver s' →
    h.Accounts host a s' (leaves (bindMethod m receiver) s')) :
    h.Accounts host a s (leaves (perform w) s) := by
  induction w generalizing s with
  | give v => exact .refl s
  | fail => exact .refl s
  | raise => exact .refl s
  | ask r next ih =>
    refine .bind (.bind (accounts_answer hbinds) fun answer s₁ _ => .of_frames rfl) fun answer s₁ hr => ?_
    refine ih answer fun m receiver s' hb => hbinds m receiver s' ?_
    exact Work.Reaches.binds (.answered hr (.refl _ _)) hb

/-- An expression accounts for its parts and for what it does itself: it binds a name only early. -/
theorem accounts_expression (hall : h.AllStand) {x : Expr Address}
    (hs : h.Stands host W (.node (d + 1) e (.expression x) s))
    (hparts : ∀ b, Calls host (.node (d + 1) e (.expression x) s) b →
      h.Accounts host (.node (d + 1) e (.expression x) s) b.store (b.final host)) :
    h.Accounts host (.node (d + 1) e (.expression x) s) s (leaves (evaluate host (d + 1) e x) s) := by
  have hgood : h.Good host W s := hs.good
  -- What a part binds is accounted for by `hparts`; operators, reads and checks change no frame, so only
  -- an assignment is left.
  have hpart : ∀ y s₁, Calls host (.node (d + 1) e (.expression x) s) (.node d e (.expression y) s₁) →
      h.Accounts host (.node (d + 1) e (.expression x) s) s₁ (leaves (evaluate host d e y) s₁) := by
    intro y s₁ hc
    rw [← final_expression]
    exact hparts _ hc
  unfold evaluate
  cases x with
  | literal value => exact .refl s
  | grouping x => exact hpart x s .grouping
  | unary op line x =>
    refine .bind (hpart x s .unary) fun v s₁ hx => ?_
    rw [leaves_operator]
    exact .refl s₁
  | binary op line x y =>
    refine .bind (hpart x s .left) fun v s₁ hx => .bind (hpart y s₁ (.right hx)) fun w s₂ hy => ?_
    rw [leaves_operator]
    exact .refl s₂
  | logical op x y =>
    refine .bind (hpart x s .first) fun v s₁ hx => ?_
    cases hdecided : op.isDecided v with
    | true => exact .refl s₁
    | false => exact hpart y s₁ (.second hx hdecided)
  | «variable» n address =>
    rw [hgood.access]
    show h.Accounts host _ s (leaves (Eval.read e n address) s)
    rw [leaves_read]
    exact .refl s
  | assign n address x =>
    refine .bind (hpart x s .assigned) fun v s₁ hx => ?_
    exact .bind (hs.accounts_write hall hx) fun _ s₂ _ => .refl s₂
  | call x line xs =>
    refine .bind (hpart x s .callee) fun f s₁ hx => .bind ?_ fun vs s₂ hxs => .bind ?_ fun _ s₃ hcheck => ?_
    · rw [← final_arguments]
      exact hparts _ (.arguments hx)
    · rw [leaves_checkCall]
      exact .refl s₂
    · rw [leaves_onLine, ← final_call]
      exact hparts _ (.called hx hxs hcheck)
  | get x n =>
    refine .bind (hpart x s .object) fun v s₁ hx => ?_
    refine accounts_property fun i c m hobject hfield hm => ?_
    subst hobject
    rw [← final_bind]
    exact hparts _ (.bound hx hfield hm)
  | set x n y =>
    refine .bind (hpart x s .target) fun v s₁ hx => ?_
    cases v with
    | object i c => exact .bind (hpart y s₁ (.stored hx)) fun w s₂ hy => .of_frames rfl
    | _ => exact .refl s₁
  | this line address =>
    rw [hgood.access]
    show h.Accounts host _ s (leaves (Eval.read e ⟨thisName, line⟩ address) s)
    rw [leaves_read]
    exact .refl s
  | lambda r => exact .of_frames rfl

/-- A statement accounts for its parts and for the name that it declares. -/
theorem accounts_statement {t : Stmt Address}
    (hparts : ∀ b, Calls host (.node (d + 1) e (.statement t) s) b →
      h.Accounts host (.node (d + 1) e (.statement t) s) b.store (b.final host)) :
    h.Accounts host (.node (d + 1) e (.statement t) s) s (leaves (execute host (d + 1) e t) s) := by
  -- A statement binds a name itself only as a declaration. All else is bound by its parts.
  have hexpression : ∀ x, Calls host (.node (d + 1) e (.statement t) s) (.node d e (.expression x) s) →
      h.Accounts host (.node (d + 1) e (.statement t) s) s (leaves (evaluate host d e x) s) := by
    intro x hc
    rw [← final_expression]
    exact hparts _ hc
  have hstatement : ∀ u s₁, Calls host (.node (d + 1) e (.statement t) s) (.node d e (.statement u) s₁) →
      h.Accounts host (.node (d + 1) e (.statement t) s) s₁ (leaves (execute host d e u) s₁) := by
    intro u s₁ hc
    rw [← final_statement]
    exact hparts _ hc
  cases t with
  | expression x => exact .bind (hexpression x .expression) fun _ s₁ _ => .refl s₁
  | print x => exact .bind (hexpression x .print) fun _ s₁ _ => .of_frames rfl
  | var n x =>
    cases x with
    | none => exact accounts_define (List.mem_singleton_self _) rfl
    | some x =>
      refine .bind (hexpression x .initializer) fun v s₁ hx => ?_
      exact accounts_define (v := v) (List.mem_singleton_self _) (bind_of_ok hx)
  -- The frame of a block is made empty.
  | block ts =>
    have hbody := hparts _ .block
    rw [final_body] at hbody
    exact .trans (.withFrame fun n v hv => by cases hv) hbody
  | branch x t f =>
    refine .bind (hexpression x .condition) fun v s₁ hx => ?_
    cases htruthy : v.isTruthy with
    | true => exact hstatement t s₁ (.onTrue hx htruthy)
    | false =>
      cases f with
      | none => exact .refl s₁
      | some f => exact hstatement f s₁ (.onFalse hx htruthy)
  | «while» x b =>
    have hloop := hparts _ .loop
    rw [final_loop] at hloop
    exact hloop
  | function n r =>
    exact .trans (.of_frames rfl) (accounts_define (List.mem_singleton_self _) rfl)
  | «return» line x =>
    cases x with
    | none => exact .refl s
    | some x => exact .bind (hexpression x .returned) fun _ s₁ _ => .refl s₁
  | «class» n ms =>
    exact .trans (.of_frames rfl) (accounts_define (List.mem_singleton_self _) rfl)

/-- A loop accounts for its condition, its body and the rounds after the first. -/
theorem accounts_loop {rounds : Nat} {x : Expr Address} {t : Stmt Address}
    (hparts : ∀ b, Calls host (.loop (rounds + 1) d e x t s) b →
      h.Accounts host (.loop (rounds + 1) d e x t s) b.store (b.final host)) :
    h.Accounts host (.loop (rounds + 1) d e x t s) s
      (leaves (Eval.loop (round (evaluate host d e x) (execute host d e t)) (rounds + 1)) s) := by
  unfold Eval.loop
  refine .bind (.bind ?_ fun v s₁ hx => ?_) fun r s₂ hr => ?_
  · rw [← final_expression]
    exact hparts _ .loopCondition
  · cases htruthy : v.isTruthy with
    | false => exact .refl s₁
    | true =>
      rw [if_pos rfl, leaves_map, ← final_statement]
      exact hparts _ (.loopBody hx htruthy)
  · cases r with
    | none => exact .refl s₂
    | some outcome =>
      cases outcome with
      | returned v => exact .refl s₂
      | normal =>
        -- The remaining rounds are an activation of their own.
        obtain ⟨v, s₁, hx, htruthy, ht⟩ := round_eq_some.1 hr
        have hagain := hparts _ (.loopAgain hx htruthy ht)
        rw [final_loop] at hagain
        exact hagain

/-- A call accounts for the body, or the initializer, and for the parameters in their frame. -/
theorem accounts_call {f : Value} {vs : List Value}
    (hs : h.Stands host W (.call (d + 1) f vs s))
    (hparts : ∀ b, Calls host (.call (d + 1) f vs s) b →
      h.Accounts host (.call (d + 1) f vs s) b.store (b.final host)) :
    h.Accounts host (.call (d + 1) f vs s) s (leaves (call host (d + 1) f vs) s) := by
  cases f with
  | native i arity =>
    rw [call_native]
    cases hnative : host.natives[i]? with
    | none => exact .refl s
    | some native =>
      -- The announcement changes no frame, and all that the work may do to one is to bind methods.
      refine .bind (.of_frames rfl) fun _ s₁ hs₁ => accounts_perform fun m receiver s' hb => ?_
      rw [← final_bind]
      exact hparts _ (.fetched hnative hs₁ hb)
  | function i c =>
    have hcount : c.routine.parameters.length = vs.length := Option.some.inj hs.proper.2.2
    have hbody := hparts _ .routine
    rw [final_body] at hbody
    -- The frame of the call holds the parameters.
    have hframe : h.Accounts host (.call (d + 1) (.function i c) vs s) s
        (s.withFrame (parameterTable c.routine.parameters vs)) := by
      refine .withFrame fun n v hv => .parameter ?_
      exact (find?_parameterTable hcount n).1 ⟨v, hv⟩
    unfold call
    refine hframe.trans (.bind (x := inOrder _ _) hbody fun outcome s₁ _ => ?_)
    cases c.isInitializer with
    | true =>
      rw [if_pos rfl, leaves_read]
      exact .refl s₁
    | false => cases outcome <;> exact .refl s₁
  | «class» i c =>
    unfold call
    refine .bind (.of_frames rfl) fun receiver s₁ hobject => ?_
    cases hm : c.methods.find? initializerName with
    | none => exact .refl s₁
    -- The initializer is bound in a frame of its own and then called.
    | some m =>
      refine .bind ?_ fun f s₂ hbind => .bind ?_ fun _ s₃ _ => .refl s₃
      · rw [← final_bind]
        exact hparts _ (.initializerBound hobject hm)
      · rw [← final_call]
        exact hparts _ (.initializerCalled hobject hm hbind)
  | _ => exact .refl s

/-- A program accounts for its statements, one after the other. -/
theorem accounts_program {ts : List (Stmt Address)}
    (hparts : ∀ b, Calls host (.program d ts s) b →
      h.Accounts host (.program d ts s) b.store (b.final host)) :
    h.Accounts host (.program d ts s) s (leaves (runProgram host d ts) s) := by
  cases ts with
  | nil => exact .refl s
  | cons t ts =>
    unfold runProgram
    rw [List.foldlM_cons]
    -- The value that the first statement leaves has no part in what the others bind.
    refine .bind ?_ fun r s₁ ht => ?_
    · cases t with
      | expression x =>
        have hfirst := hparts _ .outermostExpression
        rw [final_expression] at hfirst
        unfold runStatement
        rw [leaves_map]
        exact hfirst
      | _ =>
        have hfirst := hparts _ (.outermostStatement fun x hx => by cases hx)
        rw [final_statement] at hfirst
        exact .bind hfirst fun _ s₁ _ => .refl s₁
    · rw [leaves_foldlM_runStatement host d ts r none s₁]
      have hlater := hparts _ (.laterOutermost ht)
      rw [final_program] at hlater
      exact hlater

/-- Every name that an activation leaves bound was bound before, or is bound by something that the
activation leads to. -/
theorem accounts (hall : h.AllStand) {a : Activation} (ha : h.happens host a) :
    h.Accounts host a a.store (a.final host) := by
  -- The induction is on what an activation calls. The parts account for what they bind, so each case is
  -- left with what the activation does itself.
  induction a using Activation.induction host with
  | step a ih =>
  have hparts : ∀ b, Calls host a b → h.Accounts host a b.store (b.final host) := fun b hc =>
    .of_calls hc (ih b hc (h.calls ha hc))
  obtain ⟨W, hs⟩ := hall host a ha
  cases a with
  | node d e node s =>
    cases node with
    | expression x =>
      rw [final_expression]
      cases d with
      | zero => exact .refl s
      | succ d => exact accounts_expression hall hs hparts
    | arguments xs =>
      rw [final_arguments]
      cases xs with
      | nil => exact .refl s
      | cons x xs =>
        rw [List.mapM_cons]
        refine .bind ?_ fun v s₁ hx => .bind ?_ fun vs s₂ _ => .refl s₂
        · rw [← final_expression]
          exact hparts _ .argument
        · rw [← final_arguments]
          exact hparts _ (.laterArguments hx)
    | statement t =>
      rw [final_statement]
      cases d with
      | zero => exact .refl s
      | succ d => exact accounts_statement hparts
    | body ts =>
      rw [final_body]
      cases ts with
      | nil => exact .refl s
      | cons t ts =>
        refine .bind (x := execute host d e t) ?_ fun outcome s₁ ht => ?_
        · rw [← final_statement]
          exact hparts _ .statement
        · cases outcome with
          | returned v => exact .refl s₁
          | normal =>
            have hlater := hparts _ (.laterStatements ht)
            rw [final_body] at hlater
            exact hlater
    | routine kind r => exact .refl s
    | methods ms => exact .refl s
  | loop rounds d e x t s =>
    rw [final_loop]
    cases rounds with
    | zero => exact .refl s
    | succ rounds => exact accounts_loop hparts
  | call d f vs s =>
    rw [final_call]
    cases d with
    | zero => exact .refl s
    | succ d => exact accounts_call hs hparts
  | bind m receiver s =>
    rw [final_bind]
    refine .trans (.withFrame fun n v hv => ?_) (.of_frames (s := s.withFrame _) rfl)
    rw [(find?_receiver.1 hv).1]
    exact .receiver
  | program d ts s =>
    rw [final_program]
    exact accounts_program hparts

end History

end Treewalk
