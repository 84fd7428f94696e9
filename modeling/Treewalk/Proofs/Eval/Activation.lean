import Treewalk.Proofs.Eval.Frames
import Treewalk.Proofs.Scope.Place

/-!
# Activations

An activation is one step of a run on the store it begins with: a node is evaluated or executed in an
environment, the rounds of a loop are run, a value is called, a method is bound, or the rest of a
program is run. `Calls host a b` says that activation `a` leads to activation `b` directly. There is one
rule for each place at which evaluation goes on with something else, and a rule asks that everything
before that place came to its end. A native function may ask for methods of instances, so a call of it
leads to the methods that its work binds (`Work.Binds`).

What an activation does depends on the access to names only where names are accessed: if two ways of
access agree wherever a run comes, then the run is the same (`Agreeing.evaluate_eq` and the lemmas
after it).
-/

namespace Treewalk

namespace Eval

variable {α β : Type} {s s' : Store}

/-- A step that comes to its end is followed by what comes next. -/
theorem bind_of_ok {x : Eval α} {f : α → Eval β} {a : α} {s₁ : Store} (h : x s = .ok a s₁) :
    (x >>= f) s = f a s₁ := by
  show EStateM.bind x f s = _
  unfold EStateM.bind
  rw [h]

/-- A step that stops is followed by nothing. -/
theorem bind_of_error {x : Eval α} {f : α → Eval β} {stop : Stop} {s₁ : Store}
    (h : x s = .error stop s₁) : (x >>= f) s = .error stop s₁ := by
  show EStateM.bind x f s = _
  unfold EStateM.bind
  rw [h]

/-- Two steps come to an end if and only if each of them does. -/
theorem bind_eq_ok {x : Eval α} {f : α → Eval β} {b : β} :
    (x >>= f) s = .ok b s' ↔ ∃ a s₁, x s = .ok a s₁ ∧ f a s₁ = .ok b s' := by
  constructor
  · intro h
    cases hx : x s with
    | ok a s₁ =>
      rw [bind_of_ok hx] at h
      exact ⟨a, s₁, rfl, h⟩
    | error stop s₁ =>
      rw [bind_of_error hx] at h
      cases h
  · rintro ⟨a, s₁, hx, hf⟩
    rw [bind_of_ok hx, hf]

/-- The result of a step may be changed once it has come to its end. -/
theorem map_eq_ok {x : Eval α} {f : α → β} {b : β} :
    (f <$> x) s = .ok b s' ↔ ∃ a, x s = .ok a s' ∧ f a = b := by
  change EStateM.map f x s = _ ↔ _
  unfold EStateM.map
  cases x s with
  | ok a s₁ =>
    constructor
    · intro h
      cases h
      exact ⟨a, rfl, rfl⟩
    · rintro ⟨a', h, rfl⟩
      cases h
      rfl
  | error stop s₁ =>
    constructor
    · intro h
      cases h
    · rintro ⟨a', h, -⟩
      cases h

/-- A round of a loop that begins evaluates the condition and then executes the body. -/
theorem round_eq_some {x : Eval Value} {b : Eval Outcome} {outcome : Outcome} :
    round x b s = .ok (some outcome) s' ↔
      ∃ v s₁, x s = .ok v s₁ ∧ v.isTruthy = true ∧ b s₁ = .ok outcome s' := by
  refine bind_eq_ok.trans (exists_congr fun v => exists_congr fun s₁ => and_congr_right fun _ => ?_)
  -- A false condition ends the loop, so the body is executed after a true one only.
  cases v.isTruthy with
  | true =>
    rw [if_pos rfl]
    refine map_eq_ok.trans ⟨?_, fun hb => ⟨outcome, hb.2, rfl⟩⟩
    rintro ⟨o, hb, ho⟩
    cases ho
    exact ⟨rfl, hb⟩
  | false =>
    rw [if_neg Bool.false_ne_true]
    constructor
    · intro h
      cases h
    · rintro ⟨h, -⟩
      cases h

/-- A loop all of whose rounds are run to their end is not left. -/
theorem loop_of_rounds {round : Eval (Option Outcome)}
    (hround : ∀ s, ∃ s', round s = .ok (some .normal) s') (rounds : Nat) (s : Store) :
    ∃ s', loop round rounds s = .error .unfinished s' := by
  induction rounds generalizing s with
  | zero => exact ⟨s, rfl⟩
  | succ rounds ih =>
    obtain ⟨s₁, hs⟩ := hround s
    obtain ⟨s', hs'⟩ := ih s₁
    exact ⟨s', (bind_of_ok hs).trans hs'⟩

/-! ### Requests -/

section

variable {object : Given} {name : String} {s : Store}

/-- A property that is there is read and shown. -/
theorem answer_property (h : hasProperty s (named s object) name = true) :
    answer (.property object name) s =
      (property (named s object) ⟨name, 0⟩ >>= reveal) s := by
  show (if hasProperty s (named s object) name then
    property (named s object) ⟨name, 0⟩ >>= reveal else pure .nothing) s = _
  rw [if_pos h]

/-- Nothing comes of the request for a property that is not there. -/
theorem answer_noProperty (h : hasProperty s (named s object) name = false) :
    answer (.property object name) s = .ok .nothing s := by
  show (if hasProperty s (named s object) name then
    property (named s object) ⟨name, 0⟩ >>= reveal else pure .nothing) s = _
  rw [h]
  rfl

/-- A field is written if the value is an instance, and otherwise nothing is done. -/
theorem answer_setField (object value : Given) (name : String) (s : Store) :
    (∃ i c, named s object = .object i c ∧ answer (.setField object name value) s =
        .ok .nothing { s with fields := s.fields.put i name (named s value) }) ∨
      answer (.setField object name value) s = .ok .nothing s := by
  have hget : (get : Eval Store) s = .ok s s := rfl
  simp only [answer, bind_of_ok hget]
  cases named s object with
  | object i c => exact .inl ⟨i, c, rfl, rfl⟩
  | _ => exact .inr rfl

/-- An instance is made and shown if the value is a class, and otherwise nothing is done. -/
theorem answer_newObject (c : Given) (s : Store) :
    (∃ i k, named s c = .class i k ∧ answer (.newObject c) s = (newObject k >>= reveal) s) ∨
      answer (.newObject c) s = .ok .nothing s := by
  have hget : (get : Eval Store) s = .ok s s := rfl
  simp only [answer, bind_of_ok hget]
  cases named s c with
  | «class» i k => exact .inl ⟨i, k, rfl, rfl⟩
  | _ => exact .inr rfl

end

end Eval

/-! ## The work of native functions -/

/-- Work that is begun on one store comes to other work on another store, by requests that are answered. -/
inductive Work.Reaches : Work → Store → Work → Store → Prop
  | refl (w : Work) (s : Store) : Reaches w s w s
  | answered {r : Request} {next : Answer → Work} {a : Answer} {w : Work} {s s₁ s₂ : Store}
    (hr : Eval.respond r s = .ok a s₁) (h : Reaches (next a) s₁ w s₂) : Reaches (.ask r next) s w s₂

/-- Work may be done in two parts. -/
theorem Work.Reaches.trans {w w' w'' : Work} {s s' s'' : Store} (h : w.Reaches s w' s')
    (h' : w'.Reaches s' w'' s'') : w.Reaches s w'' s'' := by
  induction h with
  | refl => exact h'
  | answered hr _ ih => exact .answered hr (ih h')

/-- Work that is over comes to nothing else. -/
theorem Work.Reaches.eq_give {v : Given} {w : Work} {s s' : Store}
    (h : (Work.give v).Reaches s w s') : w = .give v := by
  cases h
  rfl

/-- To do work is to do what it comes to. -/
theorem Work.Reaches.perform_eq {w w' : Work} {s s' : Store} (h : w.Reaches s w' s') :
    Eval.perform w s = Eval.perform w' s' := by
  induction h with
  | refl => rfl
  | answered hr _ ih => exact (Eval.bind_of_ok hr).trans ih

/-- Work comes to a request for a property of an instance that is a method, so the method is bound to the
instance. -/
def Work.Binds (w : Work) (s : Store) (m : Closure) (receiver : Value) (s' : Store) : Prop :=
  ∃ object name next i c, w.Reaches s (.ask (.property object name) next) s' ∧
    Eval.named s' object = receiver ∧ receiver = .object i c ∧ s'.fields.find? i name = none ∧
      c.methods.find? name = some m

/-- The methods that are bound later on are bound by the work. -/
theorem Work.Reaches.binds {w w' : Work} {s s' s'' : Store} {m : Closure} {receiver : Value}
    (h : w.Reaches s w' s') (hb : w'.Binds s' m receiver s'') : w.Binds s m receiver s'' := by
  obtain ⟨object, name, next, i, c, hreaches, hrest⟩ := hb
  exact ⟨object, name, next, i, c, h.trans hreaches, hrest⟩

/-! ## Activations -/

/-- A step of a run, with the store it begins with. -/
inductive Activation where
  | node (depth : Nat) (e : Environment) (node : Node Address) (s : Store)
  | loop (rounds depth : Nat) (e : Environment) (condition : Expr Address) (body : Stmt Address)
    (s : Store)
  | call (depth : Nat) (callee : Value) (arguments : List Value) (s : Store)
  | bind (m : Closure) (receiver : Value) (s : Store)
  | program (depth : Nat) (program : List (Stmt Address)) (s : Store)

/-- The store that an activation begins with. -/
def Activation.store : Activation → Store
  | node _ _ _ s | loop _ _ _ _ _ s | call _ _ _ s | bind _ _ s | program _ _ s => s

/-- The activations that an activation leads to directly. -/
inductive Calls (host : Host) : Activation → Activation → Prop
  -- Expressions.
  | grouping {d e x s} :
    Calls host (.node (d + 1) e (.expression (.grouping x)) s) (.node d e (.expression x) s)
  | unary {d e op line x s} :
    Calls host (.node (d + 1) e (.expression (.unary op line x)) s) (.node d e (.expression x) s)
  | left {d e op line x y s} :
    Calls host (.node (d + 1) e (.expression (.binary op line x y)) s) (.node d e (.expression x) s)
  | right {d e op line x y s v s₁} (hx : evaluate host d e x s = .ok v s₁) :
    Calls host (.node (d + 1) e (.expression (.binary op line x y)) s) (.node d e (.expression y) s₁)
  | first {d e op x y s} :
    Calls host (.node (d + 1) e (.expression (.logical op x y)) s) (.node d e (.expression x) s)
  | second {d e op x y s v s₁} (hx : evaluate host d e x s = .ok v s₁)
    (hv : op.isDecided v = false) :
    Calls host (.node (d + 1) e (.expression (.logical op x y)) s) (.node d e (.expression y) s₁)
  | assigned {d e n a x s} :
    Calls host (.node (d + 1) e (.expression (.assign n a x)) s) (.node d e (.expression x) s)
  | callee {d e x line xs s} :
    Calls host (.node (d + 1) e (.expression (.call x line xs)) s) (.node d e (.expression x) s)
  | arguments {d e x line xs s v s₁} (hx : evaluate host d e x s = .ok v s₁) :
    Calls host (.node (d + 1) e (.expression (.call x line xs)) s) (.node d e (.arguments xs) s₁)
  | called {d e x line xs s v s₁ vs s₂ s₃} (hx : evaluate host d e x s = .ok v s₁)
    (hxs : xs.mapM (evaluate host d e) s₁ = .ok vs s₂)
    (hcheck : Eval.checkCall line v vs.length s₂ = .ok () s₃) :
    Calls host (.node (d + 1) e (.expression (.call x line xs)) s) (.call d v vs s₃)
  | object {d e x n s} :
    Calls host (.node (d + 1) e (.expression (.get x n)) s) (.node d e (.expression x) s)
  | bound {d e x n s i c s₁ m} (hx : evaluate host d e x s = .ok (.object i c) s₁)
    (hfield : s₁.fields.find? i n.text = none) (hm : c.methods.find? n.text = some m) :
    Calls host (.node (d + 1) e (.expression (.get x n)) s) (.bind m (.object i c) s₁)
  | target {d e x n y s} :
    Calls host (.node (d + 1) e (.expression (.set x n y)) s) (.node d e (.expression x) s)
  | stored {d e x n y s i c s₁} (hx : evaluate host d e x s = .ok (.object i c) s₁) :
    Calls host (.node (d + 1) e (.expression (.set x n y)) s) (.node d e (.expression y) s₁)
  | argument {d e x xs s} :
    Calls host (.node d e (.arguments (x :: xs)) s) (.node d e (.expression x) s)
  | laterArguments {d e x xs s v s₁} (hx : evaluate host d e x s = .ok v s₁) :
    Calls host (.node d e (.arguments (x :: xs)) s) (.node d e (.arguments xs) s₁)
  -- Statements.
  | expression {d e x s} :
    Calls host (.node (d + 1) e (.statement (.expression x)) s) (.node d e (.expression x) s)
  | print {d e x s} :
    Calls host (.node (d + 1) e (.statement (.print x)) s) (.node d e (.expression x) s)
  | initializer {d e n x s} :
    Calls host (.node (d + 1) e (.statement (.var n (some x))) s) (.node d e (.expression x) s)
  | block {d e ss s} :
    Calls host (.node (d + 1) e (.statement (.block ss)) s)
      (.node d (e.extend s.frames.next) (.body ss) (s.withFrame {}))
  | condition {d e x t f s} :
    Calls host (.node (d + 1) e (.statement (.branch x t f)) s) (.node d e (.expression x) s)
  | onTrue {d e x t f s v s₁} (hx : evaluate host d e x s = .ok v s₁) (hv : v.isTruthy = true) :
    Calls host (.node (d + 1) e (.statement (.branch x t f)) s) (.node d e (.statement t) s₁)
  | onFalse {d e x t f s v s₁} (hx : evaluate host d e x s = .ok v s₁) (hv : v.isTruthy = false) :
    Calls host (.node (d + 1) e (.statement (.branch x t (some f))) s) (.node d e (.statement f) s₁)
  | loop {d e x b s} :
    Calls host (.node (d + 1) e (.statement (.while x b)) s) (.loop host.rounds d e x b s)
  | loopCondition {n d e x b s} :
    Calls host (.loop (n + 1) d e x b s) (.node d e (.expression x) s)
  | loopBody {n d e x b s v s₁} (hx : evaluate host d e x s = .ok v s₁) (hv : v.isTruthy = true) :
    Calls host (.loop (n + 1) d e x b s) (.node d e (.statement b) s₁)
  | loopAgain {n d e x b s v s₁ s₂} (hx : evaluate host d e x s = .ok v s₁)
    (hv : v.isTruthy = true) (hb : execute host d e b s₁ = .ok .normal s₂) :
    Calls host (.loop (n + 1) d e x b s) (.loop n d e x b s₂)
  | returned {d e line x s} :
    Calls host (.node (d + 1) e (.statement (.return line (some x))) s) (.node d e (.expression x) s)
  | statement {d e t ss s} :
    Calls host (.node d e (.body (t :: ss)) s) (.node d e (.statement t) s)
  | laterStatements {d e t ss s s₁} (ht : execute host d e t s = .ok .normal s₁) :
    Calls host (.node d e (.body (t :: ss)) s) (.node d e (.body ss) s₁)
  -- Calls.
  | routine {d i closure vs s} :
    Calls host (.call (d + 1) (.function i closure) vs s)
      (.node d (closure.environment.extend s.frames.next) (.body closure.routine.body)
        (s.withFrame (parameterTable closure.routine.parameters vs)))
  | initializerBound {d i c vs s receiver s₁ m} (hobject : Eval.newObject c s = .ok receiver s₁)
    (hm : c.methods.find? initializerName = some m) :
    Calls host (.call (d + 1) (.class i c) vs s) (.bind m receiver s₁)
  | initializerCalled {d i c vs s receiver s₁ m f s₂}
    (hobject : Eval.newObject c s = .ok receiver s₁)
    (hm : c.methods.find? initializerName = some m)
    (hbind : Eval.bindMethod m receiver s₁ = .ok f s₂) :
    Calls host (.call (d + 1) (.class i c) vs s) (.call d f vs s₂)
  | fetched {d i arity vs s native s₁ m receiver s₂} (hnative : host.natives[i]? = some native)
    (hannounce : Eval.announce i vs s = .ok () s₁)
    (hbind : (native s₁.events).Binds s₁ m receiver s₂) :
    Calls host (.call (d + 1) (.native i arity) vs s) (.bind m receiver s₂)
  -- Programs.
  | outermostExpression {d x ss s} :
    Calls host (.program d (.expression x :: ss) s)
      (.node d (.outermost globalFrame) (.expression x) s)
  | outermostStatement {d t ss s} (ht : ∀ x, t ≠ .expression x) :
    Calls host (.program d (t :: ss) s) (.node d (.outermost globalFrame) (.statement t) s)
  | laterOutermost {d t ss s v s₁} (ht : runStatement host d t s = .ok v s₁) :
    Calls host (.program d (t :: ss) s) (.program d ss s₁)

/-- The activations that an activation leads to. -/
abbrev Activation.LeadsTo (host : Host) : Activation → Activation → Prop :=
  Relation.ReflTransGen (Calls host)

/-! ## Chains of activations end -/

namespace Activation

/-- How many levels an activation may still have. -/
def depth : Activation → Nat
  | node d _ _ _ | loop _ d _ _ _ _ | call d _ _ _ | program d _ _ => d
  | bind _ _ _ => 0

/-- How many parts of a list, or rounds of a loop, an activation may still have. -/
def extent : Activation → Nat
  | node _ _ (.arguments xs) _ => xs.length + 1
  | node _ _ (.body ts) _ | program _ ts _ => ts.length + 1
  | loop rounds _ _ _ _ _ => rounds + 1
  | _ => 0

end Activation

/-- Every activation leads to others of fewer levels, or to one with less of a list or a loop. -/
theorem Calls.decreases {host : Host} {a b : Activation} (h : Calls host a b) :
    Prod.Lex (· < ·) (· < ·) (b.depth, b.extent) (a.depth, a.extent) := by
  cases h with
  | argument | laterArguments | loopCondition | loopBody | loopAgain | statement | laterStatements
  | outermostExpression | outermostStatement | laterOutermost =>
    refine .right _ ?_
    simp [Activation.extent]
  | bound | initializerBound | fetched => exact .left _ _ (Nat.succ_pos _)
  | _ => exact .left _ _ (Nat.lt_succ_self _)

/-- What holds of an activation whenever it holds of all that the activation leads to directly holds of
every activation. -/
theorem Activation.induction (host : Host) {P : Activation → Prop}
    (step : ∀ a, (∀ b, Calls host a b → P b) → P a) (a : Activation) : P a := by
  have hwf : WellFounded fun b a : Activation =>
      Prod.Lex (· < ·) (· < ·) (b.depth, b.extent) (a.depth, a.extent) :=
    InvImage.wf _ (Prod.lex Nat.lt_wfRel Nat.lt_wfRel).wf
  induction a using hwf.induction with
  | _ a ih => exact step a fun b hb => ih b hb.decreases

end Treewalk
