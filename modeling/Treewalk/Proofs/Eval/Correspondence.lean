import Treewalk.Proofs.Eval.Likeness
import Treewalk.Proofs.Scope.Alteration

/-!
# Runs that correspond

Two programs whose nodes are the same but for names and addresses (`Node.Alters`) may run on frames that
are not the same. A `Correspondence` is a way to compare such runs: what is known of the frames of the two,
a world, which grows as frames are made, and how values, tables and environments are related in a world.

`Correspondence.Lawful` asks of it what the steps need in which a run touches its frames, makes a function
or binds a method, one law for each of them. All other steps are the same for every correspondence: from
the laws it follows that nodes that are the same but for the rule match, and that calls of values that are
alike match (`Correspondence.Lawful.simulates`), by induction on the depth that a run may still have. So do
whole programs (`Correspondence.Lawful.matches_runProgram`).
-/

namespace Treewalk

open Eval

/-- A way to compare two runs. -/
structure Correspondence where
  /-- What is known of the frames of the two runs. -/
  World : Type
  Grows : World → World → Prop
  likeness : World → Likeness
  frames : World → Frames Value → Frames Value → Prop
  stops : Stop → Stop → Prop
  /-- What may become of the names and addresses of a program. -/
  rule : NameRule Address Address
  /-- The names that may be bound in the own frames, as seen from a bearing. -/
  binds : Bearing → String → String → Prop
  /-- The environments of two nodes, as seen from a bearing. -/
  fits : World → Bearing → Environment → Environment → Prop
  /-- The environments of two classes, as seen from the bearing of their methods. -/
  fitsClass : World → Bearing → Environment → Environment → Prop
  refl : ∀ w, Grows w w
  trans : ∀ {w w' w''}, Grows w w' → Grows w' w'' → Grows w w''
  weaker : ∀ {w w'}, Grows w w' → (likeness w).Weaker (likeness w')
  keepsFaces : ∀ w, (likeness w).KeepsFaces
  same : ∀ stop, stops stop stop
  /-- A run that is nested too deeply corresponds to no other run than such a one. -/
  overflow : ∀ {stop stop'}, stops stop stop' →
    stop' = stop ∨ ∀ line, stop ≠ .overflow line ∧ stop' ≠ .overflow line

namespace Correspondence

variable {K : Correspondence} {w w' w₁ : K.World}

/-- Values are alike in a world. -/
abbrev Values (K : Correspondence) (w : K.World) : Value → Value → Prop := Value.Alike (K.likeness w)

/-- Statements end alike in a world. -/
abbrev Outcomes (K : Correspondence) (w : K.World) : Outcome → Outcome → Prop :=
  Outcome.Alike (K.likeness w)

/-- Two stores correspond: their frames do, the fields of instances hold values that are alike, as much was
made and printed, and native functions know the same. -/
structure Stores (K : Correspondence) (w : K.World) (s s' : Store) : Prop where
  frames : K.frames w s.frames s'.frames
  fields : s.fields.Related (fun _ => Eq) (K.Values w) s'.fields
  identity : s'.nextIdentity = s.nextIdentity
  printed : s'.printed = s.printed
  told : s.Told (K.likeness w) s'

/-- Two steps come to the same end, with related results and stores that correspond. -/
inductive Ends (K : Correspondence) {α β : Type} (w : K.World) (R : K.World → α → β → Prop) :
    EStateM.Result Stop Store α → EStateM.Result Stop Store β → Prop
  | ok {a : α} {b : β} {s s' : Store} (h : R w a b) (hs : K.Stores w s s') : Ends K w R (.ok a s) (.ok b s')
  | error {stop stop' : Stop} {s s' : Store} (h : K.stops stop stop') (hs : K.Stores w s s') :
    Ends K w R (.error stop s) (.error stop' s')

/-- From stores that correspond in the given world or a later one, two steps come to the same end. -/
def Matches (K : Correspondence) {α β : Type} (w : K.World) (R : K.World → α → β → Prop) (x : Eval α)
    (y : Eval β) : Prop :=
  ∀ w₁, K.Grows w w₁ → ∀ s s', K.Stores w₁ s s' → ∃ w₂, K.Grows w₁ w₂ ∧ K.Ends w₂ R (x s) (y s')

/-! ## Steps one after another -/

namespace Matches

variable {α β γ δ : Type} {R : K.World → α → β → Prop} {R' : K.World → γ → δ → Prop} {x : Eval α}
  {y : Eval β}

/-- What matches in a world matches in a later one. -/
theorem mono (h : K.Matches w R x y) (hw : K.Grows w w') : K.Matches w' R x y :=
  fun w₁ hw₁ => h w₁ (K.trans hw hw₁)

/-- Results may be related by less. -/
theorem weaken {R' : K.World → α → β → Prop} (h : K.Matches w R x y)
    (hR : ∀ w₁, K.Grows w w₁ → ∀ a b, R w₁ a b → R' w₁ a b) : K.Matches w R' x y := by
  intro w₁ hw₁ s s' hs
  obtain ⟨w₂, hw₂, hends⟩ := h w₁ hw₁ s s' hs
  refine ⟨w₂, hw₂, ?_⟩
  generalize x s = r at hends
  generalize y s' = r' at hends
  cases hends with
  | ok ha hs => exact .ok (hR _ (K.trans hw₁ hw₂) _ _ ha) hs
  | error hstop hs => exact .error hstop hs

/-- Two steps that only give a result. -/
theorem pure {a : α} {b : β} (h : ∀ w₁, K.Grows w w₁ → R w₁ a b) :
    K.Matches w R (Pure.pure a) (Pure.pure b) :=
  fun w₁ hw₁ _ _ hs => ⟨w₁, K.refl w₁, .ok (h w₁ hw₁) hs⟩

/-- What comes after a look at the store is to be compared for stores that correspond. -/
theorem get {k : Store → Eval α} {k' : Store → Eval β}
    (hk : ∀ w₁, K.Grows w w₁ → ∀ s s', K.Stores w₁ s s' → K.Matches w₁ R (k s) (k' s')) :
    K.Matches w R (MonadState.get >>= k) (MonadState.get >>= k') :=
  fun w₁ hw₁ s s' hs => hk w₁ hw₁ s s' hs w₁ (K.refl w₁) s s' hs

/-- Two steps that stop for the same reason. -/
theorem throw (stop : Stop) : K.Matches w R (MonadExcept.throw stop) (MonadExcept.throw stop) :=
  fun w₁ _ _ _ hs => ⟨w₁, K.refl w₁, .error (K.same stop) hs⟩

/-- Two steps that report the same fault. -/
theorem faultAt (line : Int) (f : Fault) : K.Matches w R (Eval.faultAt line f) (Eval.faultAt line f) :=
  throw _

/-- What comes next is to be compared in the world in which the first steps end. -/
theorem bind {k : α → Eval γ} {k' : β → Eval δ} (hx : K.Matches w R x y)
    (hk : ∀ w₁, K.Grows w w₁ → ∀ a b, R w₁ a b → K.Matches w₁ R' (k a) (k' b)) :
    K.Matches w R' (x >>= k) (y >>= k') := by
  intro w₁ hw₁ s s' hs
  obtain ⟨w₂, hw₂, hends⟩ := hx w₁ hw₁ s s' hs
  show ∃ w₃, K.Grows w₁ w₃ ∧ K.Ends w₃ R' (EStateM.bind x k s) (EStateM.bind y k' s')
  unfold EStateM.bind
  generalize x s = r at hends
  generalize y s' = r' at hends
  -- Either both first steps succeed and the others match in a later world, or both have stopped.
  cases hends with
  | ok ha hs₂ =>
    obtain ⟨w₃, hw₃, hends⟩ := hk w₂ (K.trans hw₁ hw₂) _ _ ha w₂ (K.refl w₂) _ _ hs₂
    exact ⟨w₃, K.trans hw₂ hw₃, hends⟩
  | error hstop hs₂ => exact ⟨w₂, hw₂, .error hstop hs₂⟩

/-- Results are related after both were mapped. -/
theorem map {k : α → γ} {k' : β → δ} (hx : K.Matches w R x y)
    (hk : ∀ w₁, K.Grows w w₁ → ∀ a b, R w₁ a b → R' w₁ (k a) (k' b)) :
    K.Matches w R' (k <$> x) (k' <$> y) := by
  intro w₁ hw₁ s s' hs
  obtain ⟨w₂, hw₂, hends⟩ := hx w₁ hw₁ s s' hs
  show ∃ w₃, K.Grows w₁ w₃ ∧ K.Ends w₃ R' (EStateM.map k x s) (EStateM.map k' y s')
  unfold EStateM.map
  generalize x s = r at hends
  generalize y s' = r' at hends
  cases hends with
  | ok ha hs₂ => exact ⟨w₂, hw₂, .ok (hk _ (K.trans hw₁ hw₂) _ _ ha) hs₂⟩
  | error hstop hs₂ => exact ⟨w₂, hw₂, .error hstop hs₂⟩

/-- A call that is nested too deeply is matched by one that is, and both are reported on the line. -/
theorem onLine (line : Int) {x y : Eval Value} {R : K.World → Value → Value → Prop}
    (hx : K.Matches w R x y) : K.Matches w R (Eval.onLine line x) (Eval.onLine line y) := by
  intro w₁ hw₁ s s' hs
  obtain ⟨w₂, hw₂, hends⟩ := hx w₁ hw₁ s s' hs
  refine ⟨w₂, hw₂, ?_⟩
  unfold Eval.onLine
  generalize x s = r at hends
  generalize y s' = r' at hends
  cases hends with
  | ok ha hs₂ => exact .ok ha hs₂
  | @error stop stop' _ _ hstop hs₂ =>
    -- The line is filled in if the reason is a call that is nested too deeply, and for no other reason.
    rcases K.overflow hstop with rfl | hother
    · cases stop' with
      | overflow at? =>
        cases at? with
        | none => exact .error (K.same _) hs₂
        | some _ => exact .error (K.same _) hs₂
      | _ => exact .error (K.same _) hs₂
    · split
      · next heq =>
        cases heq
        exact absurd rfl (hother none).1
      · split
        · next heq =>
          cases heq
          exact absurd rfl (hother none).2
        · exact .error hstop hs₂

end Matches

/-! ## Steps that leave the frames alone -/

namespace Matches

variable {v v' : Value}

/-- Corresponding stores give out the same identity next. -/
theorem newIdentity : K.Matches w (fun _ i i' => i = i') Eval.newIdentity Eval.newIdentity := by
  intro w₁ _ s s' hs
  exact ⟨w₁, K.refl w₁, .ok hs.identity.symm
    ⟨hs.frames, hs.fields, congrArg (· + 1) hs.identity, hs.printed, hs.told.shown, hs.told.events⟩⟩

/-- A function is made of closures that are alike, under the same identity. -/
theorem newFunction {c c' : Closure} (hc : (K.likeness w).function c c') :
    K.Matches w K.Values (Eval.newFunction c) (Eval.newFunction c') := by
  refine newIdentity.bind fun w₁ hw₁ i i' hi => ?_
  subst hi
  exact .pure fun w₂ hw₂ => .function i ((K.weaker (K.trans hw₁ hw₂)).function _ _ hc)

/-- An instance is made of classes that are alike, under the same number. -/
theorem newObject {c c' : Class} (hc : c.Alike (K.likeness w) c') :
    K.Matches w K.Values (Eval.newObject c) (Eval.newObject c') := by
  intro w₁ hw₁ s s' hs
  have hvalue : K.Values w₁ (.object s.fields.next c) (.object s.fields.next c') :=
    .object _ (hc.weaken (K.weaker hw₁))
  refine ⟨w₁, K.refl w₁, .ok ?_
    ⟨hs.frames, hs.fields.add .empty, hs.identity, hs.printed, hs.told.shown, hs.told.events⟩⟩
  -- Both instances have the same identity, as there were as many of them.
  rwa [hs.fields.next_eq]

/-- The same field gets values that are alike. -/
theorem setField (i : Nat) (name : String) (hv : K.Values w v v') :
    K.Matches w (fun _ _ _ => True) (Eval.setField i name v) (Eval.setField i name v') := by
  intro w₁ hw₁ s s' hs
  have hfields := hs.fields.put (i := i) biUnique_eq (rfl : name = name) (hv.weaken (K.weaker hw₁))
  exact ⟨w₁, K.refl w₁, .ok trivial
    ⟨hs.frames, hfields, hs.identity, hs.printed, hs.told.shown, hs.told.events⟩⟩

/-- The same line is printed. -/
theorem print (line : String) : K.Matches w (fun _ _ _ => True) (Eval.print line) (Eval.print line) := by
  intro w₁ _ s s' hs
  exact ⟨w₁, K.refl w₁, .ok trivial
    ⟨hs.frames, hs.fields, hs.identity, congrArg (·.push line) hs.printed, hs.told.shown,
      hs.told.events⟩⟩

/-- Native functions are told of a call in the same way. -/
theorem announce (index : Nat) {vs vs' : List Value} (hvs : List.Forall₂ (K.Values w) vs vs') :
    K.Matches w (fun _ _ _ => True) (Eval.announce index vs) (Eval.announce index vs') := by
  intro w₁ hw₁ s s' hs
  have hvs₁ : List.Forall₂ (K.Values w₁) vs vs' := hvs.imp fun _ _ hv => hv.weaken (K.weaker hw₁)
  refine ⟨w₁, K.refl w₁, .ok trivial ⟨hs.frames, hs.fields, hs.identity, hs.printed, ?_, ?_⟩⟩
  · simp only [Array.toList_append]
    exact List.rel_append hs.told.shown hvs₁
  · simp only [hs.told.size_eq, hs.told.events, sights_alike (K.keepsFaces w₁) hvs₁]

/-- Values that are alike are shown in the same way. -/
theorem reveal (hv : K.Values w v v') :
    K.Matches w (fun _ a a' => a = a') (Eval.reveal v) (Eval.reveal v') := by
  intro w₁ hw₁ s s' hs
  have hv₁ : K.Values w₁ v v' := hv.weaken (K.weaker hw₁)
  refine ⟨w₁, K.refl w₁, .ok ?_ ⟨hs.frames, hs.fields, hs.identity, hs.printed, ?_, hs.told.events⟩⟩
  · rw [hs.told.size_eq, hv₁.view (K.keepsFaces w₁)]
  · simp only [Array.toList_push]
    exact List.rel_append hs.told.shown (.cons hv₁ .nil)

/-- The same answer is put on record. -/
theorem record (a : Answer) :
    K.Matches w (fun _ _ _ => True) (Eval.record a) (Eval.record a) := by
  intro w₁ _ s s' hs
  exact ⟨w₁, K.refl w₁, .ok trivial ⟨hs.frames, hs.fields, hs.identity, hs.printed, hs.told.shown,
    congrArg (Event.answered a :: ·) hs.told.events⟩⟩

/-- An operator whose result is alike to itself: it has the same result, or the same fault, in both runs. -/
theorem operator (line : Int) {r : Except OperandFault Value}
    (hr : ∀ v, r = .ok v → ∀ L : Likeness, v.Alike L v) :
    K.Matches w K.Values (Eval.operator line r) (Eval.operator line r) := by
  cases r with
  | ok v => exact .pure fun _ _ => hr v rfl _
  | error f => exact faultAt line _

/-- Values that are alike take as many arguments, so both calls are made or neither. -/
theorem checkCall (hv : K.Values w v v') (line : Int) (count : Nat) :
    K.Matches w (fun _ _ _ => True) (Eval.checkCall line v count) (Eval.checkCall line v' count) := by
  unfold Eval.checkCall
  rw [hv.arity (K.keepsFaces w)]
  cases v.arity? with
  | none => exact faultAt line _
  | some expected =>
    simp only
    split
    · exact .pure fun _ _ => trivial
    · exact faultAt line _

/-! ## Control -/

variable {c c' : Eval Value} {b b' : Eval Outcome} {r r' : Eval (Option Outcome)}

/-- A round of a loop: the condition comes out the same, and so is the body executed or not. -/
theorem round (hc : K.Matches w K.Values c c') (hb : K.Matches w K.Outcomes b b') :
    K.Matches w (fun w => Option.Rel (K.Outcomes w)) (Eval.round c b) (Eval.round c' b') := by
  refine hc.bind fun w₁ hw₁ v v' hv => ?_
  rw [hv.isTruthy]
  split
  · exact (hb.mono hw₁).map fun _ _ _ _ ho => .some ho
  · exact .pure fun _ _ => .none

/-- What is returned stays alike as the world grows. -/
theorem returned (hv : K.Values w v v') :
    K.Matches w K.Outcomes (Pure.pure (.returned v)) (Pure.pure (.returned v')) :=
  .pure fun _ hw₁ => .returned (hv.weaken (K.weaker hw₁))

/-- Loops whose rounds match, by induction on the number of rounds. -/
theorem loop (hr : K.Matches w (fun w => Option.Rel (K.Outcomes w)) r r') (rounds : Nat) :
    K.Matches w K.Outcomes (Eval.loop r rounds) (Eval.loop r' rounds) := by
  induction rounds generalizing w with
  | zero => exact .throw _
  | succ rounds ih =>
    refine hr.bind fun w₁ hw₁ o o' ho => ?_
    cases ho with
    | none => exact .pure fun _ _ => .normal
    | some ho =>
      cases ho with
      | normal => exact ih (hr.mono hw₁)
      | returned hv => exact .returned hv

end Matches

/-! ## Laws -/

/-- What a correspondence has to keep: one law for each step in which a run touches its frames, makes a
function or binds a method. -/
structure Lawful (K : Correspondence) : Prop where
  biUnique : ∀ g, Relator.BiUnique (K.binds g)
  declare : ∀ {g n n'}, K.rule.declare g n n' → K.binds g n.text n'.text
  keep : ∀ {g n}, K.rule.keep g n → K.binds g n.text n.text
  mono : ∀ {w w' g e e'}, K.fits w g e e' → K.Grows w w' → K.fits w' g e e'
  part : ∀ {w g e e'}, K.fits w g e e' → ∀ i, K.fits w (g.part i) e e'
  inClass : ∀ {w g e e'}, K.fits w g e e' → K.fitsClass w g.inClass e e'
  partOfClass : ∀ {w g e e'}, K.fitsClass w g e e' → ∀ i, K.fitsClass w (g.part i) e e'
  read : ∀ {w g e e' n n' a a'}, K.fits w g e e' → K.rule.use g n a n' a' →
    K.Matches w K.Values (Eval.read e n a) (Eval.read e' n' a')
  write : ∀ {w g e e' n n' a a' v v'}, K.fits w g e e' → K.rule.use g n a n' a' → K.Values w v v' →
    K.Matches w (fun _ _ _ => True) (Eval.write e n a v) (Eval.write e' n' a' v')
  define : ∀ {w g e e' n n' v v'}, K.fits w g e e' → K.binds g n n' → K.Values w v v' →
    K.Matches w (fun _ _ _ => True) (Eval.define e.own n v) (Eval.define e'.own n' v')
  /-- Blocks and routines run in frames of their own. -/
  enter : ∀ {w g e e' table table'}, K.fits w g e e' →
    table.Related (K.binds g.enter) (K.Values w) table' →
    K.Matches w (fun w₁ e₁ e₁' => K.fits w₁ g.enter e₁ e₁') (Eval.extend e table) (Eval.extend e' table')
  /-- Functions are made of routines that are the same but for the rule. -/
  function : ∀ {w g e e' kind r r'}, K.fits w g e e' →
    Node.Alters K.rule g (.routine kind r) (.routine kind r') → r'.parameters.length = r.parameters.length →
    ∀ name, (K.likeness w).function ⟨name, r, e, false⟩ ⟨name, r', e', false⟩
  method : ∀ {w g e e' kind r r'}, K.fitsClass w g e e' →
    Node.Alters K.rule g (.routine kind r) (.routine kind r') → r'.parameters.length = r.parameters.length →
    ∀ name isInitializer, (K.likeness w).method ⟨name, r, e, isInitializer⟩ ⟨name, r', e', isInitializer⟩
  /-- A method is bound to its instance in a frame of its own. -/
  bound : ∀ {w c c' v v'}, (K.likeness w).method c c' → K.Values w v v' →
    K.Matches w (fun w₁ e₁ e₁' =>
        (K.likeness w₁).function { c with environment := e₁ } { c' with environment := e₁' })
      (Eval.extend c.environment (({} : Bindings Value).put thisName v))
      (Eval.extend c'.environment (({} : Bindings Value).put thisName v'))
  /-- Functions that are alike have routines that are the same but for the rule, and initializers find
  their instances. -/
  called : ∀ {w c c'}, (K.likeness w).function c c' → ∃ g kind,
    K.fits w g c.environment c'.environment ∧
    Node.Alters K.rule g (.routine kind c.routine) (.routine kind c'.routine) ∧
    (c.isInitializer = true →
      K.rule.use g ⟨thisName, 0⟩ (.scope 0) ⟨thisName, 0⟩ (.scope 0))

/-- Two runs are in environments that fit as seen from a bearing. -/
structure Bears (K : Correspondence) (host : Host) (w : K.World) (g : Bearing) (e e' : Environment) :
    Prop where
  access : host.access = .byAddress
  fits : K.fits w g e e'

/-- At a depth, nodes that are the same but for the rule match, and so do calls of values that are
alike. -/
structure Simulates (K : Correspondence) (host : Host) (d : Nat) : Prop where
  evaluate : ∀ {w g e e' x x'}, K.Bears host w g e e' →
    Node.Alters K.rule g (.expression x) (.expression x') →
    K.Matches w K.Values (evaluate host d e x) (evaluate host d e' x')
  execute : ∀ {w g e e' t t'}, K.Bears host w g e e' →
    Node.Alters K.rule g (.statement t) (.statement t') →
    K.Matches w K.Outcomes (execute host d e t) (execute host d e' t')
  call : ∀ {w f f' vs vs'}, host.access = .byAddress → K.Values w f f' → List.Forall₂ (K.Values w) vs vs' →
    K.Matches w K.Values (call host d f vs) (call host d f' vs')

section

variable {host : Host} {g : Bearing} {e e' : Environment} {d : Nat}

/-- A routine has as many parameters after the names have changed. -/
theorem length_parameters {kind : RoutineKind} {r r' : Routine Address}
    (h : Node.Alters K.rule g (.routine kind r) (.routine kind r')) :
    r'.parameters.length = r.parameters.length := by
  cases h with
  | routine hps _ => exact hps.length_eq.symm

namespace Lawful

variable (hK : K.Lawful)
include hK

/-- Environments that bear do so in a later world. -/
theorem bears_mono (hat : K.Bears host w g e e') (hw : K.Grows w w') : K.Bears host w' g e e' :=
  ⟨hat.access, hK.mono hat.fits hw⟩

/-- The environment of a node is the one of its parts, too. -/
theorem bears_part (hat : K.Bears host w g e e') (i : Nat) : K.Bears host w (g.part i) e e' :=
  ⟨hat.access, hK.part hat.fits i⟩

/-- The methods of a class, one after another, on top of tables that correspond. -/
theorem foldl_method_related (hfits : K.fitsClass w g e e') {ms ms' : List (Name × Routine Address)}
    (h : Node.Alters K.rule g (.methods ms) (.methods ms')) {b b' : Bindings Closure}
    (hb : b.Related Eq (K.likeness w).method b') :
    (ms.foldl (fun table method => table.put method.1.text
      ⟨some method.1.text, method.2, e, decide (method.1.text = initializerName)⟩) b).Related Eq
      (K.likeness w).method (ms'.foldl (fun table method => table.put method.1.text
        ⟨some method.1.text, method.2, e', decide (method.1.text = initializerName)⟩) b') := by
  induction ms generalizing ms' g b b' with
  | nil =>
    cases h
    exact hb
  | cons method ms ih =>
    -- Methods of one name replace each other in both tables.
    cases h with
    | methods hr hms =>
      rw [List.foldl_cons, List.foldl_cons]
      refine ih (hK.partOfClass hfits 1) hms (hb.put biUnique_eq rfl ?_)
      exact hK.method (hK.partOfClass hfits 0) hr (length_parameters hr) _ _

/-- The methods of a class. -/
theorem methodTable_related (hfits : K.fitsClass w g e e') {ms ms' : List (Name × Routine Address)}
    (h : Node.Alters K.rule g (.methods ms) (.methods ms')) :
    (methodTable e ms).Related Eq (K.likeness w).method (methodTable e' ms') :=
  hK.foldl_method_related hfits h .empty

/-- Parameters, bound one after the other, are related if the values are. -/
theorem foldl_put_related {ps ps' : List Name} {vs vs' : List Value}
    (hps : List.Forall₂ (K.rule.declare g) ps ps') (hvs : List.Forall₂ (K.Values w) vs vs')
    {b b' : Bindings Value} (hb : b.Related (K.binds g) (K.Values w) b') :
    ((ps.zip vs).foldl (fun table pair => table.put pair.1.text pair.2) b).Related (K.binds g)
      (K.Values w) ((ps'.zip vs').foldl (fun table pair => table.put pair.1.text pair.2) b') := by
  induction hps generalizing vs vs' b b' with
  | nil => exact hb
  | cons hp _ ih =>
    cases hvs with
    | nil => exact hb
    | cons hv hvs => exact ih hvs (hb.put (hK.biUnique g) (hK.declare hp) hv)

/-- The frame of a called routine. -/
theorem parameterTable_related {ps ps' : List Name} {vs vs' : List Value}
    (hps : List.Forall₂ (K.rule.declare g) ps ps') (hvs : List.Forall₂ (K.Values w) vs vs') :
    (parameterTable ps vs).Related (K.binds g) (K.Values w) (parameterTable ps' vs') :=
  hK.foldl_put_related hps hvs .empty

/-- A declaration on the own frame ends a statement. -/
theorem define_normal (hat : K.Bears host w g e e') {n n' : String} {v v' : Value} (hn : K.binds g n n')
    (hv : K.Values w v v') :
    K.Matches w K.Outcomes (do Eval.define e.own n v; return .normal : Eval Outcome)
      (do Eval.define e'.own n' v'; return .normal : Eval Outcome) :=
  (hK.define hat.fits hn hv).bind fun _ _ _ _ _ => .pure fun _ _ => .normal

/-- Binding methods that are alike to receivers that are alike, by the law for it. -/
theorem bindMethod {c c' : Closure} {v v' : Value} (hc : (K.likeness w).method c c')
    (hv : K.Values w v v') : K.Matches w K.Values (Eval.bindMethod c v) (Eval.bindMethod c' v') :=
  (hK.bound hc hv).bind fun _ _ _ _ hfunction => .newFunction hfunction

/-- Reading a property: a field holds values that are alike, a method is bound. -/
theorem property {v v' : Value} (hv : K.Values w v v') (n : Name) :
    K.Matches w K.Values (Eval.property v n) (Eval.property v' n) := by
  cases hv with
  | @object i c c' hc =>
    intro w₁ hw₁ s s' hs
    rw [property_object, property_object]
    have hobject : K.Values w (.object i c) (.object i c') := .object i hc
    have hfield := hs.fields.find? (rfl : n.text = n.text) (i := i)
    generalize s.fields.find? i n.text = field at hfield
    generalize s'.fields.find? i n.text = field' at hfield
    cases hfield with
    | some hv => exact ⟨w₁, K.refl w₁, .ok hv hs⟩
    | none =>
      -- The instances have no such field, so their classes are asked for a method.
      have hmethod := hc.method n.text
      generalize c.methods.find? n.text = method at hmethod
      generalize c'.methods.find? n.text = method' at hmethod
      cases hmethod with
      | none => exact ⟨w₁, K.refl w₁, .error (K.same _) hs⟩
      | some hmethod => exact bindMethod hK hmethod hobject w₁ hw₁ s s' hs
  | _ => exact .faultAt _ _

/-! ### Native functions -/

omit hK in
/-- Values that are alike have the same properties. -/
theorem hasProperty_eq {s s' : Store} (hs : K.Stores w s s') {v v' : Value} (hv : K.Values w v v')
    (name : String) : hasProperty s' v' name = hasProperty s v name := by
  cases hv with
  | @object i c c' hc =>
    have hfield := option_rel_isSome (hs.fields.find? (rfl : name = name) (i := i))
    have hmethod := option_rel_isSome (hc.method name)
    simp only [hasProperty, hfield, hmethod]
  | _ => rfl

/-- What a native function asks for is answered in the same way. -/
theorem answer (r : Request) : K.Matches w (fun _ a a' => a = a') (Eval.answer r) (Eval.answer r) := by
  cases r with
  | same a b =>
    refine .get fun w₁ _ s s' hs => .pure fun _ _ => ?_
    rw [(hs.told.named a).same (hs.told.named b)]
  | property object name =>
    refine .get fun w₁ hw₁ s s' hs => ?_
    have hv := hs.told.named object
    -- Whether there is such a property is the same for both, and then it is read in both.
    simp only [hasProperty_eq hs hv name]
    split
    · exact (hK.property hv _).bind fun w₂ _ u u' hu => .reveal hu
    · exact .pure fun _ _ => rfl
  | setField object name value =>
    refine .get fun w₁ hw₁ s s' hs => ?_
    have hv := hs.told.named object
    -- The two values are alike, so both are instances with the same number or neither is one.
    generalize named s object = v at hv
    generalize named s' object = v' at hv
    cases hv with
    | object i hc =>
      exact (Matches.setField i name (hs.told.named value)).bind fun _ _ _ _ _ => .pure fun _ _ => rfl
    | _ => exact .pure fun _ _ => rfl
  | newClass name =>
    refine Matches.newIdentity.bind fun w₁ _ i i' hi => ?_
    subst hi
    exact .reveal (.class i ⟨rfl, .empty⟩)
  | newObject c =>
    refine .get fun w₁ hw₁ s s' hs => ?_
    have hv := hs.told.named c
    -- Both are classes or neither is.
    generalize named s c = v at hv
    generalize named s' c = v' at hv
    cases hv with
    | «class» i hc => exact (Matches.newObject hc).bind fun _ _ _ _ hu => .reveal hu
    | _ => exact .pure fun _ _ => rfl
  | print line => exact (Matches.print line).bind fun _ _ _ _ _ => .pure fun _ _ => rfl

/-- A request of a native function is answered alike, and the answer is recorded in both runs. -/
theorem respond (r : Request) :
    K.Matches w (fun _ a a' => a = a') (Eval.respond r) (Eval.respond r) := by
  refine (hK.answer r).bind fun w₁ _ a a' ha => ?_
  subst ha
  exact (Matches.record a).bind fun _ _ _ _ _ => .pure fun _ _ => rfl

/-- The work of a native function comes to the same, step by step. -/
theorem perform (work : Work) : K.Matches w K.Values (Eval.perform work) (Eval.perform work) := by
  induction work generalizing w with
  | give v => exact .get fun _ _ _ _ hs => .pure fun _ hw₂ => (hs.told.named v).weaken (K.weaker hw₂)
  | fail => exact .throw _
  | raise => exact .throw _
  | ask r next ih =>
    refine (hK.respond r).bind fun w₁ _ a a' ha => ?_
    subst ha
    exact ih a

/-- A native function does the same in both runs, as it was told the same. -/
theorem callNative (index : Nat) (native : Native) {vs vs' : List Value}
    (hvs : List.Forall₂ (K.Values w) vs vs') :
    K.Matches w K.Values (Eval.callNative index native vs) (Eval.callNative index native vs') := by
  refine (Matches.announce index hvs).bind fun w₁ _ _ _ _ => .get fun w₂ _ s s' hs => ?_
  rw [hs.told.events]
  exact hK.perform _

end Lawful

/-! ## One level more -/

namespace Simulates

variable (hK : K.Lawful) (hd : K.Simulates host d)
include hK hd

/-- Arguments are evaluated one after the other, to values that are alike. -/
theorem arguments (hat : K.Bears host w g e e') {xs xs' : List (Expr Address)}
    (h : Node.Alters K.rule g (.arguments xs) (.arguments xs')) :
    K.Matches w (fun w => List.Forall₂ (K.Values w)) (xs.mapM (Treewalk.evaluate host d e))
      (xs'.mapM (Treewalk.evaluate host d e')) := by
  induction xs generalizing w g xs' with
  | nil =>
    cases h
    exact .pure fun _ _ => .nil
  | cons x xs ih =>
    cases h with
    | arguments hx hxs =>
      rw [List.mapM_cons, List.mapM_cons]
      -- Values that were there before are alike in later worlds too.
      refine (hd.evaluate (hK.bears_part hat 0) hx).bind fun w₁ hw₁ v v' hv => ?_
      refine (ih (hK.bears_mono (hK.bears_part hat 1) hw₁) hxs).bind fun w₂ hw₂ vs vs' hvs => ?_
      exact .pure fun _ hw₃ => .cons (hv.weaken (K.weaker (K.trans hw₂ hw₃)))
        (hvs.imp fun _ _ hv => hv.weaken (K.weaker hw₃))

/-- A body is executed one statement after the other, up to the first that ends it. -/
theorem body (hat : K.Bears host w g e e') {ts ts' : List (Stmt Address)}
    (h : Node.Alters K.rule g (.body ts) (.body ts')) :
    K.Matches w K.Outcomes (inOrder (Treewalk.execute host d e) ts)
      (inOrder (Treewalk.execute host d e') ts') := by
  induction ts generalizing w g ts' with
  | nil =>
    cases h
    exact .pure fun _ _ => .normal
  | cons t ts ih =>
    cases h with
    | statements ht hts =>
      unfold inOrder
      refine (hd.execute (hK.bears_part hat 0) ht).bind fun w₁ hw₁ o o' ho => ?_
      -- Both bodies go on, or both return.
      cases ho with
      | normal => exact ih (hK.bears_mono (hK.bears_part hat 1) hw₁) hts
      | returned hv => exact .returned hv

/-- Expressions match if their parts do, case by case. -/
theorem evaluate_succ (hat : K.Bears host w g e e') {x x' : Expr Address}
    (h : Node.Alters K.rule g (.expression x) (.expression x')) :
    K.Matches w K.Values (Treewalk.evaluate host (d + 1) e x) (Treewalk.evaluate host (d + 1) e' x') := by
  -- The first part of a node is at `hat`, and the second one in the world that the first part leads to.
  have hfirst := hK.bears_part hat 0
  have hsecond : ∀ {w₁}, K.Grows w w₁ → K.Bears host w₁ (g.part 1) e e' := fun hw₁ =>
    hK.bears_mono (hK.bears_part hat 1) hw₁
  unfold Treewalk.evaluate
  cases h with
  | literal => exact .pure fun _ _ => .of_literal _
  | grouping hx => exact hd.evaluate hfirst hx
  | unary hx =>
    refine (hd.evaluate hfirst hx).bind fun _ _ v v' hv => ?_
    rw [hv.unary]
    exact .operator _ fun _ hr _ => .of_unary hr
  | binary hx hy =>
    refine (hd.evaluate hfirst hx).bind fun w₁ hw₁ v v' hv => ?_
    refine (hd.evaluate (hsecond hw₁) hy).bind fun w₂ hw₂ u u' hu => ?_
    rw [(hv.weaken (K.weaker hw₂)).binary hu]
    exact .operator _ fun _ hr _ => .of_binary hr
  | logical hx hy =>
    refine (hd.evaluate hfirst hx).bind fun w₁ hw₁ v v' hv => ?_
    rw [hv.isDecided]
    split
    · exact .pure fun _ hw₂ => hv.weaken (K.weaker hw₂)
    · exact hd.evaluate (hsecond hw₁) hy
  | «variable» huse =>
    rw [hat.access]
    exact hK.read hat.fits huse
  | assign huse hx =>
    rw [hat.access]
    refine (hd.evaluate hfirst hx).bind fun w₁ hw₁ v v' hv => ?_
    refine (hK.write (hK.mono hat.fits hw₁) huse hv).bind fun w₂ hw₂ _ _ _ => ?_
    exact .pure fun _ hw₃ => hv.weaken (K.weaker (K.trans hw₂ hw₃))
  | call hx hxs =>
    refine (hd.evaluate hfirst hx).bind fun w₁ hw₁ f f' hf => ?_
    refine (arguments hK hd (hsecond hw₁) hxs).bind fun w₂ hw₂ vs vs' hvs => ?_
    have hf₂ := hf.weaken (K.weaker hw₂)
    rw [← hvs.length_eq]
    refine (Matches.checkCall hf₂ _ _).bind fun w₃ hw₃ _ _ _ => ?_
    exact .onLine _ (hd.call hat.access (hf₂.weaken (K.weaker hw₃)) (hvs.imp fun _ _ hv => hv.weaken (K.weaker hw₃)))
  | get hx =>
    refine (hd.evaluate hfirst hx).bind fun _ _ v v' hv => ?_
    exact hK.property hv _
  | set hx hy =>
    refine (hd.evaluate (hsecond (K.refl w)) hy).bind fun w₁ hw₁ v v' hv => ?_
    cases hv with
    | object i hc =>
      refine (hd.evaluate (hK.bears_mono hfirst hw₁) hx).bind fun w₂ hw₂ u u' hu => ?_
      refine (Matches.setField _ _ hu).bind fun w₃ hw₃ _ _ _ => ?_
      exact .pure fun _ hw₄ => hu.weaken (K.weaker (K.trans hw₃ hw₄))
    | _ => exact .faultAt _ _
  | this huse =>
    rw [hat.access]
    exact hK.read hat.fits huse
  | lambda hr => exact .newFunction (hK.function hfirst.fits hr (length_parameters hr) _)

/-- Statements match if their parts do, case by case. -/
theorem execute_succ (hat : K.Bears host w g e e') {t t' : Stmt Address}
    (h : Node.Alters K.rule g (.statement t) (.statement t')) :
    K.Matches w K.Outcomes (Treewalk.execute host (d + 1) e t) (Treewalk.execute host (d + 1) e' t') := by
  -- The declarations end by `define_normal`, and all else is left to the parts.
  have hfirst := hK.bears_part hat 0
  have hlater : ∀ {w₁}, K.Grows w w₁ → ∀ i, K.Bears host w₁ (g.part i) e e' := fun hw₁ i =>
    hK.bears_mono (hK.bears_part hat i) hw₁
  unfold Treewalk.execute
  cases h with
  | expression hx =>
    refine (hd.evaluate hfirst hx).bind fun _ _ _ _ _ => ?_
    exact .pure fun _ _ => .normal
  | print hx =>
    refine (hd.evaluate hfirst hx).bind fun _ _ v v' hv => ?_
    rw [hv.display (K.keepsFaces _)]
    exact (Matches.print _).bind fun _ _ _ _ _ => .pure fun _ _ => .normal
  | unset hname => exact hK.define_normal hat (hK.declare hname) .nil
  | var hname hx =>
    refine (hd.evaluate hfirst hx).bind fun w₁ hw₁ v v' hv => ?_
    exact hK.define_normal (hK.bears_mono hat hw₁) (hK.declare hname) hv
  | block hts =>
    have htable : ({} : Bindings Value).Related (K.binds g.enter) (K.Values w) {} := .empty
    refine (hK.enter hat.fits htable).bind fun w₁ hw₁ e₁ e₁' hfits => ?_
    exact body hK hd ⟨hat.access, hfits⟩ hts
  | ifThen hx ht =>
    refine (hd.evaluate hfirst hx).bind fun w₁ hw₁ v v' hv => ?_
    rw [hv.isTruthy]
    split
    · exact hd.execute (hlater hw₁ 1) ht
    · exact .pure fun _ _ => .normal
  | ifElse hx ht hu =>
    refine (hd.evaluate hfirst hx).bind fun w₁ hw₁ v v' hv => ?_
    rw [hv.isTruthy]
    split
    · exact hd.execute (hlater hw₁ 1) ht
    · exact hd.execute (hlater hw₁ 2) hu
  | «while» hx ht =>
    exact (Matches.round (hd.evaluate hfirst hx) (hd.execute (hlater (K.refl w) 1) ht)).loop _
  | function hname hr =>
    have hfunction := hK.function hfirst.fits hr (length_parameters hr)
    refine (Matches.newFunction (hfunction _)).bind fun w₁ hw₁ v v' hv => ?_
    exact hK.define_normal (hK.bears_mono hat hw₁) (hK.keep hname) hv
  | returnNothing => exact .pure fun _ _ => .returned .nil
  | «return» hx =>
    refine (hd.evaluate hfirst hx).bind fun _ _ v v' hv => ?_
    exact .returned hv
  | «class» hname hms =>
    have htable := hK.methodTable_related (hK.inClass hat.fits) hms
    refine Matches.newIdentity.bind fun w₁ hw₁ i i' hi => ?_
    subst hi
    refine hK.define_normal (hK.bears_mono hat hw₁) (hK.keep hname) (.class i ⟨rfl, ?_⟩)
    exact htable.imp (fun _ _ hx => hx) (K.weaker hw₁).method

/-- Calls match if what they lead to does: the body of a function, the initializer of a class, or the work
of a native function. -/
theorem call_succ (haccess : host.access = .byAddress) {f f' : Value} {vs vs' : List Value} (hf : K.Values w f f')
    (hvs : List.Forall₂ (K.Values w) vs vs') :
    K.Matches w K.Values (Treewalk.call host (d + 1) f vs) (Treewalk.call host (d + 1) f' vs') := by
  cases hf with
  | native i arity =>
    rw [call_native, call_native]
    cases host.natives[i]? with
    | none => exact .throw _
    | some native => exact hK.callNative i native hvs
  | @function i c c' hc =>
    have hface := (K.keepsFaces w).function c c' hc
    obtain ⟨g, kind, hfits, hcode, hreceiver⟩ := hK.called hc
    obtain ⟨name, ⟨ps, ts⟩, e, isInitializer⟩ := c
    obtain ⟨name', ⟨ps', ts'⟩, e', isInitializer'⟩ := c'
    obtain rfl : isInitializer' = isInitializer := hface.isInitializer
    cases hcode with
    | routine hps hts =>
      unfold Treewalk.call
      refine (hK.enter hfits (hK.parameterTable_related hps hvs)).bind fun w₁ hw₁ e₁ e₁' hfits₁ => ?_
      refine (body hK hd ⟨haccess, hfits₁⟩ hts).bind fun w₂ hw₂ o o' ho => ?_
      -- The receiver of an initializer is read in the frame of its method.
      cases isInitializer' with
      | true => exact hK.read (hK.mono hfits (K.trans hw₁ hw₂)) (hreceiver rfl)
      | false =>
        cases ho with
        | normal => exact .pure fun _ _ => .nil
        | returned hv => exact .pure fun _ hw₃ => hv.weaken (K.weaker hw₃)
  | @«class» i c c' hc =>
    unfold Treewalk.call
    refine (Matches.newObject hc).bind fun w₁ hw₁ v v' hv => ?_
    have hreturn : ∀ {w₂}, K.Grows w₁ w₂ →
        K.Matches w₂ K.Values (Pure.pure v : Eval Value) (Pure.pure v') := fun hw₂ =>
      .pure fun _ hw₃ => hv.weaken (K.weaker (K.trans hw₂ hw₃))
    have hinit := hc.method initializerName
    simp only
    generalize c.methods.find? initializerName = init at hinit
    generalize c'.methods.find? initializerName = init' at hinit
    cases hinit with
    | none => exact hreturn (K.refl w₁)
    | some hinit =>
      -- The instance is made first; its initializer is bound and called in later worlds.
      have hinit₁ := (K.weaker hw₁).method _ _ hinit
      refine (hK.bindMethod hinit₁ hv).bind fun w₂ hw₂ k k' hk => ?_
      have hw := K.trans hw₁ hw₂
      have hcall := hd.call haccess hk (hvs.imp fun _ _ hv => hv.weaken (K.weaker hw))
      exact hcall.bind fun w₃ hw₃ _ _ _ => hreturn (K.trans hw₂ hw₃)
  | _ => exact .throw _

end Simulates

end

/-- At every depth, nodes that are the same but for the rule match, and so do calls of values that are
alike. -/
theorem Lawful.simulates (hK : K.Lawful) (host : Host) (d : Nat) : K.Simulates host d := by
  induction d with
  | zero => exact ⟨fun _ _ => .throw _, fun _ _ => .throw _, fun _ _ _ => .throw _⟩
  | succ d ih => exact ⟨fun hat h => ih.evaluate_succ hK hat h, fun hat h => ih.execute_succ hK hat h,
    fun haccess hf hvs => ih.call_succ hK haccess hf hvs⟩

/-! ## Programs -/

section

variable {host : Host} {g : Bearing} {d : Nat} (hK : K.Lawful)
include hK

/-- An outermost statement matches; what is shown of it is alike. -/
theorem Lawful.matches_runStatement
    (hat : K.Bears host w g (.outermost globalFrame) (.outermost globalFrame)) {t t' : Stmt Address}
    (h : Node.Alters K.rule g (.statement t) (.statement t')) :
    K.Matches w (fun w => Option.Rel (K.Values w)) (runStatement host d t) (runStatement host d t') := by
  have hd := hK.simulates host d
  have ht : K.Matches w (fun w => Option.Rel (K.Values w))
      (do let _ ← execute host d (.outermost globalFrame) t; return none)
      (do let _ ← execute host d (.outermost globalFrame) t'; return none) :=
    (hd.execute hat h).bind fun _ _ _ _ _ => .pure fun _ _ => .none
  unfold runStatement
  cases h with
  | expression hx => exact (hd.evaluate (hK.bears_part hat 0) hx).map fun _ _ _ _ hv => .some hv
  | _ => exact ht

/-- Statements that are the same but for the rule match, run one after another from values that
correspond. -/
theorem Lawful.matches_foldlM
    (hat : K.Bears host w g (.outermost globalFrame) (.outermost globalFrame)) {p p' : List (Stmt Address)}
    (h : Node.Alters K.rule g (.body p) (.body p')) {v v' : Option Value}
    (hv : Option.Rel (K.Values w) v v') :
    K.Matches w (fun w => Option.Rel (K.Values w)) (p.foldlM (fun _ t => runStatement host d t) v)
      (p'.foldlM (fun _ t => runStatement host d t) v') := by
  induction p generalizing p' g w v v' with
  | nil =>
    cases h
    refine .pure fun w₁ hw₁ => ?_
    cases hv with
    | none => exact .none
    | some hv => exact .some (hv.weaken (K.weaker hw₁))
  | cons t p ih =>
    cases h with
    | statements ht hp =>
      rw [List.foldlM_cons, List.foldlM_cons]
      -- The value of the last statement is the value of the program.
      refine (hK.matches_runStatement (hK.bears_part hat 0) ht).bind fun w₁ hw₁ u u' hu => ?_
      exact ih (hK.bears_mono (hK.bears_part hat 1) hw₁) hp hu

/-- Programs that are the same but for the rule match. -/
theorem Lawful.matches_runProgram
    (hat : K.Bears host w g (.outermost globalFrame) (.outermost globalFrame)) {p p' : List (Stmt Address)}
    (h : Node.Alters K.rule g (.body p) (.body p')) :
    K.Matches w (fun w => Option.Rel (K.Values w)) (runProgram host d p) (runProgram host d p') :=
  hK.matches_foldlM hat h .none

end

end Correspondence

end Treewalk
