import Treewalk.Proofs.Session.Interpreter

/-!
# Steps of an interpreter

Each step of an interpreter follows the step of a run (`Interpreter.Follows`): both give the same on the
same store, and the interpreter is in the environment again that it began with, whichever way the step
ends. What carries this from step to step is that all environments are linked (`Interpreter.Ready`): the
frames around a frame are those found by following what encloses it.
-/

namespace Treewalk

/-! ## What encloses a frame -/

/-- The frames around a frame, found by following what encloses it: they end with the global frame, and
each of them was made before the one that it encloses. -/
inductive Encloses (enclosing : List (Option Environment)) : FrameId → List FrameId → Prop
  | global (h : enclosing[globalFrame]? = some none) : Encloses enclosing globalFrame []
  | inner {f : FrameId} {e : Environment} (h : enclosing[f]? = some (some e)) (hlt : e.own < f)
    (hs : Encloses enclosing e.own e.enclosing) : Encloses enclosing f e.chain

/-- The frames of an environment are those that are found by following what encloses its own frame. -/
def Environment.Linked (e : Environment) (enclosing : List (Option Environment)) : Prop :=
  Encloses enclosing e.own e.enclosing

/-- The environments of the functions and methods in a value are linked. -/
def Value.Linked (enclosing : List (Option Environment)) : Value → Prop
  | .function _ c => c.environment.Linked enclosing
  | .class _ c | .object _ c => ∀ n m, c.methods.find? n = some m → m.environment.Linked enclosing
  | _ => True

section

variable {enclosing enclosing' : List (Option Environment)} {f : FrameId} {fs : List FrameId}

/-- What encloses a frame stays the same while frames are added. -/
theorem Encloses.mono (hmono : enclosing <+: enclosing') (h : Encloses enclosing f fs) :
    Encloses enclosing' f fs := by
  have hsame : ∀ (f : FrameId) e, enclosing[f]? = some e → enclosing'[f]? = some e := fun f e he => by
    obtain ⟨_, rfl⟩ := hmono
    rw [List.getElem?_append_left (List.getElem?_eq_some_iff.1 he).1]
    exact he
  induction h with
  | global hg => exact .global (hsame _ _ hg)
  | inner he hlt _ ih => exact .inner (hsame _ _ he) hlt ih

/-- Linked environments stay linked while frames are added. -/
theorem Environment.Linked.mono {e : Environment} (hmono : enclosing <+: enclosing')
    (h : e.Linked enclosing) : e.Linked enclosing' := Encloses.mono hmono h

/-- So do those in values. -/
theorem Value.Linked.mono {v : Value} (hmono : enclosing <+: enclosing') (h : v.Linked enclosing) :
    v.Linked enclosing' := by
  cases v with
  | function k c => exact Environment.Linked.mono hmono h
  | «class» k c | object k c => exact fun n m hm => Environment.Linked.mono hmono (h n m hm)
  | _ => trivial

/-- A frame that is enclosed by others is one of the frames. -/
theorem Encloses.lt (h : Encloses enclosing f fs) : f < enclosing.length := by
  cases h with
  | global h | inner h => exact (List.getElem?_eq_some_iff.1 h).1

/-- A literal holds no functions and no methods. -/
theorem Value.linked_literal (l : Literal) : l.value.Linked enclosing := by cases l <;> trivial

/-- The frames around a frame end with the global frame. -/
theorem Encloses.getLast? (h : Encloses enclosing f fs) : (f :: fs).getLast? = some globalFrame := by
  induction h with
  | global => rfl
  | inner he hlt hs ih =>
    show (_ :: _ :: _).getLast? = _
    rw [List.getLast?_cons_cons]
    exact ih

end

/-! ## The same as a run -/

namespace Interpreter

/-- An interpreter in an environment, in which all environments are linked: that of the code that runs,
those that enclose the frames, and those in values, which may be held by frames and instances or were
shown to native functions. Names are accessed at their addresses. -/
structure Ready (host : Host) (e : Environment) (i : Interpreter) : Prop where
  access : host.access = .byAddress
  environment : i.environment = e
  linked : e.Linked i.enclosing
  size : i.enclosing.length = i.store.frames.next
  frames : ∀ f < i.store.frames.next, ∃ fs, Encloses i.enclosing f fs
  values : ∀ f n v, i.store.frames.find? f n = some v → v.Linked i.enclosing
  fields : ∀ f n v, i.store.fields.find? f n = some v → v.Linked i.enclosing
  shown : ∀ v ∈ i.store.shown, v.Linked i.enclosing

/-- An interpreter comes to the same as a run: the same result on the same store. It is ready for what
comes next, in the environment that it began with, and the result is good. -/
inductive Follows {α : Type} (host : Host) (e : Environment) (i : Interpreter)
    (good : List (Option Environment) → α → Prop) :
    EStateM.Result Stop Store α → EStateM.Result Stop Interpreter α → Prop
  | ok {a : α} {i' : Interpreter} (hready : Ready host e i') (hmono : i.enclosing <+: i'.enclosing)
    (ha : good i'.enclosing a) : Follows host e i good (.ok a i'.store) (.ok a i')
  | error {stop : Stop} {i' : Interpreter} (hready : Ready host e i')
    (hmono : i.enclosing <+: i'.enclosing) :
    Follows host e i good (.error stop i'.store) (.error stop i')

/-- Nothing is asked of a result. -/
abbrev Any {α : Type} : List (Option Environment) → α → Prop := fun _ _ => True

/-- The environments in a value are linked. -/
abbrev LinkedValue : List (Option Environment) → Value → Prop := fun enclosing v => v.Linked enclosing

/-- The environments in a value that is returned are linked. -/
def LinkedOutcome : List (Option Environment) → Outcome → Prop :=
  fun enclosing outcome => ∀ v, outcome = .returned v → v.Linked enclosing

variable {host : Host} {e e' : Environment} {i i₁ : Interpreter} {d : Nat}

/-! ### Steps -/

section

variable {α β : Type} {good : List (Option Environment) → α → Prop}
  {good' : List (Option Environment) → β → Prop}

/-- A result, given by both. -/
theorem Follows.pure (hi : Ready host e i) {a : α} (ha : good i.enclosing a) :
    Follows host e i good ((Pure.pure a : Eval α) i.store) ((Pure.pure a : Run α) i) :=
  .ok hi List.prefix_rfl ha

/-- A stop, made by both. -/
theorem Follows.throw (hi : Ready host e i) (stop : Stop) :
    Follows host e i good ((MonadExcept.throw stop : Eval α) i.store)
      ((MonadExcept.throw stop : Run α) i) :=
  .error hi List.prefix_rfl

/-- What comes next begins on what the first step leaves, and only if that comes to its end. -/
theorem Follows.bind {x : Eval α} {x' : Run α} {f : α → Eval β} {f' : α → Run β}
    (hx : Follows host e i good (x i.store) (x' i))
    (hf : ∀ a i₁, Ready host e i₁ → i.enclosing <+: i₁.enclosing → good i₁.enclosing a →
      Follows host e i₁ good' (f a i₁.store) (f' a i₁)) :
    Follows host e i good' ((x >>= f) i.store) ((x' >>= f') i) := by
  show Follows host e i good' (EStateM.bind x f i.store) (EStateM.bind x' f' i)
  unfold EStateM.bind
  generalize x i.store = r at hx
  generalize x' i = r' at hx
  -- Either both go on from stores that are the same, or both have stopped.
  cases hx with
  | @ok a i₁ hready hmono ha =>
    have hnext := hf a i₁ hready hmono ha
    simp only
    generalize f a i₁.store = r at hnext
    generalize f' a i₁ = r' at hnext
    cases hnext with
    | ok hready' hmono' hb => exact .ok hready' (hmono.trans hmono') hb
    | error hready' hmono' => exact .error hready' (hmono.trans hmono')
  | error hready hmono => exact .error hready hmono

/-- What becomes of the results does not matter to the stores. -/
theorem Follows.map {x : Eval α} {x' : Run α} {g : α → β}
    (hx : Follows host e i good (x i.store) (x' i))
    (hg : ∀ enclosing a, good enclosing a → good' enclosing (g a)) :
    Follows host e i good' ((g <$> x) i.store) ((g <$> x') i) := by
  show Follows host e i good' (EStateM.map g x i.store) (EStateM.map g x' i)
  unfold EStateM.map
  generalize x i.store = r at hx
  generalize x' i = r' at hx
  cases hx with
  | ok hready hmono ha => exact .ok hready hmono (hg _ _ ha)
  | error hready hmono => exact .error hready hmono

/-- The environment in the state is the one that a run is given. -/
theorem Follows.current {r : EStateM.Result Stop Store α} {g : Environment → Run α}
    (hi : Ready host e i) (h : Follows host e i good r (g e i)) :
    Follows host e i good r ((Interpreter.current >>= g) i) := by
  show Follows host e i good r (g i.environment i)
  rw [hi.environment]
  exact h

/-- Whatever is done in another environment, the environment before is put back. -/
theorem Follows.within {x : Eval α} {x' : Run α} (hi : Ready host e i)
    (hx : Follows host e' { i with environment := e' } good (x i.store)
      (x' { i with environment := e' })) :
    Follows host e i good (x i.store) (Interpreter.within e' x' i) := by
  -- What the step added stays; only the environment goes back.
  have hback : ∀ i', Ready host e' i' → i.enclosing <+: i'.enclosing →
      Ready host e { i' with environment := i.environment } := fun i' hi' hmono =>
    ⟨hi'.access, hi.environment, hi.linked.mono hmono, hi'.size, hi'.frames, hi'.values, hi'.fields,
      hi'.shown⟩
  unfold Interpreter.within
  generalize x i.store = r at hx
  generalize x' { i with environment := e' } = r' at hx
  cases hx with
  | @ok a i' hready hmono ha => exact .ok (hback i' hready hmono) hmono ha
  | @error stop i' hready hmono => exact .error (hback i' hready hmono) hmono

/-- A step on the store alone. -/
theorem Follows.onStore {x : Eval α}
    (hx : match x i.store with
      | .ok a s => Ready host e { i with store := s } ∧ good i.enclosing a
      | .error _ s => Ready host e { i with store := s }) :
    Follows host e i good (x i.store) (Interpreter.onStore x i) := by
  unfold Interpreter.onStore
  cases hr : x i.store with
  | ok a s =>
    rw [hr] at hx
    exact Follows.ok hx.1 List.prefix_rfl hx.2
  | error stop s =>
    rw [hr] at hx
    exact Follows.error hx List.prefix_rfl

end

namespace Ready

/-- An interpreter goes into another environment. -/
theorem enter (hi : Ready host e i) (he' : e'.Linked i.enclosing) :
    Ready host e' { i with environment := e' } :=
  ⟨hi.access, rfl, he', hi.size, hi.frames, hi.values, hi.fields, hi.shown⟩

/-- A store with the same frames and fields. -/
theorem of_frames (hi : Ready host e i) {s : Store} (hframes : s.frames = i.store.frames)
    (hfields : s.fields = i.store.fields) (hshown : ∀ v ∈ s.shown, v.Linked i.enclosing) :
    Ready host e { i with store := s } := by
  refine ⟨hi.access, hi.environment, hi.linked, ?_, ?_, ?_, ?_, hshown⟩
  · rw [hframes]
    exact hi.size
  · rw [hframes]
    exact hi.frames
  · rw [hframes]
    exact hi.values
  · rw [hfields]
    exact hi.fields

/-- An interpreter is ready after a linked value was put in a frame. -/
theorem withName (hi : Ready host e i) (f : FrameId) (n : String) {v : Value}
    (hv : v.Linked i.enclosing) : Ready host e { i with store := i.store.withName f n v } := by
  have hnext : (i.store.frames.put f n v).next = i.store.frames.next := Frames.next_put _ _ _ _
  refine ⟨hi.access, hi.environment, hi.linked, hi.size.trans hnext.symm, fun g hg => ?_,
    fun g m w hw => ?_, hi.fields, hi.shown⟩
  · exact hi.frames g (hnext ▸ hg)
  · rcases Frames.find?_put_cases _ hw with ⟨-, -, rfl⟩ | hw
    · exact hv
    · exact hi.values g m w hw

/-- An interpreter is ready after a linked value was put in a field. -/
theorem setField (hi : Ready host e i) (k : Nat) (n : String) {v : Value}
    (hv : v.Linked i.enclosing) :
    Ready host e { i with store := { i.store with fields := i.store.fields.put k n v } } := by
  refine ⟨hi.access, hi.environment, hi.linked, hi.size, hi.frames, hi.values, fun g m w hw => ?_,
    hi.shown⟩
  rcases Frames.find?_put_cases _ hw with ⟨-, -, rfl⟩ | hw
  · exact hv
  · exact hi.fields g m w hw

/-- A new instance has no fields. -/
theorem newObject (hi : Ready host e i) :
    Ready host e { i with store := { i.store with fields := i.store.fields.add {} } } := by
  refine ⟨hi.access, hi.environment, hi.linked, hi.size, hi.frames, hi.values, fun f n v hv => ?_,
    hi.shown⟩
  change (i.store.fields.add {}).find? f n = some v at hv
  rw [Frames.find?_add] at hv
  split at hv
  · cases hv
  · exact hi.fields f n v hv

/-- A value is shown to native functions. -/
theorem reveal (hi : Ready host e i) {v : Value} (hv : v.Linked i.enclosing) :
    Ready host e { i with store := { i.store with shown := i.store.shown.push v } } := by
  refine hi.of_frames rfl rfl fun u hu => ?_
  rcases Array.mem_push.1 hu with hu | rfl
  · exact hi.shown u hu
  · exact hv

end Ready

/-- A new frame is enclosed by the environment that it is made in. -/
theorem follows_extend (hi : Ready host e i) (he' : e'.Linked i.enclosing) {table : Bindings Value}
    (htable : ∀ n v, table.find? n = some v → v.Linked i.enclosing) :
    Follows host e i (fun enclosing (inner : Environment) => inner.Linked enclosing)
      (Eval.extend e' table i.store) (extend e' table i) := by
  let inner := e'.extend i.store.frames.next
  let i' : Interpreter := ⟨i.store.withFrame table, i.enclosing ++ [some e'], i.environment⟩
  have hmono : i.enclosing <+: i'.enclosing := List.prefix_append _ _
  have hnext : (i.store.frames.add table).next = i.store.frames.next + 1 := Frames.next_add _ _
  -- The number of the new frame is its place in the list, since there is one entry for each frame.
  have hlink : i'.enclosing[i.store.frames.next]? = some (some e') := by
    rw [← hi.size]
    exact List.getElem?_concat_length
  have hnew : Encloses i'.enclosing i.store.frames.next e'.chain :=
    .inner hlink (hi.size ▸ Encloses.lt he') (he'.mono hmono)
  have hready : Ready host e i' := by
    refine ⟨hi.access, hi.environment, hi.linked.mono hmono, ?_, fun f hf => ?_, fun f n v hv => ?_,
      fun f n v hv => (hi.fields f n v hv).mono hmono, fun v hv => (hi.shown v hv).mono hmono⟩
    · show (i.enclosing ++ [some e']).length = (i.store.frames.add table).next
      rw [List.length_append, hi.size, hnext]
      rfl
    · by_cases hlast : f = i.store.frames.next
      · exact ⟨e'.chain, hlast ▸ hnew⟩
      · have hf' : f < (i.store.frames.add table).next := hf
        rw [hnext] at hf'
        obtain ⟨fs, hfs⟩ := hi.frames f (Nat.lt_of_le_of_ne (Nat.le_of_lt_succ hf') hlast)
        exact ⟨fs, hfs.mono hmono⟩
    · change (i.store.frames.add table).find? f n = some v at hv
      rw [Frames.find?_add] at hv
      split at hv
      · exact (htable n v hv).mono hmono
      · exact (hi.values f n v hv).mono hmono
  exact .ok (a := inner) hready hmono hnew

/-- A function that is made in a linked environment. -/
theorem follows_newFunction (hi : Ready host e i) {c : Closure} (hc : c.environment.Linked i.enclosing) :
    Follows host e i LinkedValue (Eval.newFunction c i.store) (onStore (Eval.newFunction c) i) :=
  .onStore (x := Eval.newFunction c) ⟨hi.of_frames rfl rfl hi.shown, hc⟩

/-- Both bind a method in a new frame, which the one of the method encloses. -/
theorem follows_bindMethod (hi : Ready host e i) {m : Closure} {receiver : Value}
    (hm : m.environment.Linked i.enclosing) (hreceiver : receiver.Linked i.enclosing) :
    Follows host e i LinkedValue (Eval.bindMethod m receiver i.store) (bindMethod m receiver i) := by
  refine (follows_extend hi hm fun n v hv => ?_).bind fun inner i₁ hi₁ _ hinner => ?_
  · rw [(find?_receiver.1 hv).2]
    exact hreceiver
  · exact follows_newFunction hi₁ hinner

/-- What is read is among the values of the store. -/
theorem follows_read (hi : Ready host e i) (e' : Environment) (n : Name) (a : Address) :
    Follows host e i LinkedValue (Eval.read e' n a i.store) (onStore (Eval.read e' n a) i) := by
  refine .onStore ?_
  -- Nothing is changed, and what is found in a frame is linked.
  cases a with
  | global =>
    rw [Eval.read_global]
    cases hv : i.store.frames.find? globalFrame n.text with
    | none => exact hi
    | some v => exact ⟨hi, hi.values _ _ v hv⟩
  | scope k =>
    rw [Eval.read_scope]
    cases hv : (e'.ancestor? k).bind (i.store.frames.find? · n.text) with
    | none => exact hi
    | some v =>
      obtain ⟨f, -, hf⟩ := Option.bind_eq_some_iff.1 hv
      exact ⟨hi, hi.values f _ v hf⟩

/-- Both assign a name in the same frame. -/
theorem follows_write (hi : Ready host e i) (e' : Environment) (n : Name) (a : Address) {v : Value}
    (hv : v.Linked i.enclosing) :
    Follows host e i Any (Eval.write e' n a v i.store) (onStore (Eval.write e' n a v) i) := by
  refine .onStore ?_
  -- The name is not there, and nothing is changed; or the value is put in a frame.
  cases a with
  | global =>
    rw [Eval.write_global]
    cases i.store.frames.find? globalFrame n.text with
    | none => exact hi
    | some old => exact ⟨hi.withName _ _ hv, trivial⟩
  | scope k =>
    rw [Eval.write_scope]
    cases e'.ancestor? k with
    | none => exact hi
    | some f => exact ⟨hi.withName f _ hv, trivial⟩

/-- Operators make no functions and no methods. -/
theorem linked_unary {enclosing : List (Option Environment)} {op : UnaryOp} {a b : Value}
    (hb : op.apply a = .ok b) : b.Linked enclosing := by
  obtain ⟨l, rfl⟩ := UnaryOp.exists_literal hb
  exact Value.linked_literal l

/-- What an operator gives is no function, hence linked. -/
theorem linked_binary {enclosing : List (Option Environment)} {op : BinaryOp} {a b c : Value}
    (hc : op.apply a b = .ok c) : c.Linked enclosing := by
  obtain ⟨l, rfl⟩ := BinaryOp.exists_literal hc
  exact Value.linked_literal l

/-- Both apply an operator, or report its fault. -/
theorem follows_operator {line : Int} {r : Except OperandFault Value} (hi : Ready host e i)
    (hr : ∀ v, r = .ok v → v.Linked i.enclosing) :
    Follows host e i LinkedValue (Eval.operator line r i.store)
      (onStore (Eval.operator line r) i) := by
  refine .onStore ?_
  cases r with
  | ok v => exact ⟨hi, hr v rfl⟩
  | error f => exact hi

/-- Both declare a name in the same frame. -/
theorem follows_define (f : FrameId) (n : String) {v : Value} (hi : Ready host e i)
    (hv : v.Linked i.enclosing) :
    Follows host e i Any (Eval.define f n v i.store) (onStore (Eval.define f n v) i) :=
  .onStore (x := Eval.define f n v) ⟨hi.withName f n hv, trivial⟩

/-- A new instance holds the methods of its class. -/
theorem follows_newObject {c : Class} (hi : Ready host e i)
    (hc : ∀ n m, c.methods.find? n = some m → m.environment.Linked i.enclosing) :
    Follows host e i LinkedValue (Eval.newObject c i.store) (onStore (Eval.newObject c) i) :=
  .onStore (x := Eval.newObject c) ⟨hi.newObject, hc⟩

/-- Both read a property: fields hold linked values, and a method is bound. -/
theorem follows_property {v : Value} (n : Name) (hi : Ready host e i) (hv : v.Linked i.enclosing) :
    Follows host e i LinkedValue (Eval.property v n i.store) (Interpreter.property v n i) := by
  cases v with
  | object k c =>
    -- Both look at the same fields, and at the same methods if there is no such field.
    rw [Interpreter.property_object, Eval.property_object]
    cases hfield : i.store.fields.find? k n.text with
    | some field => exact .ok hi List.prefix_rfl (hi.fields _ _ field hfield)
    | none =>
      cases hm : c.methods.find? n.text with
      | some m => exact follows_bindMethod hi (hv _ m hm) hv
      | none => exact .error hi List.prefix_rfl
  | _ => exact .throw hi _

/-! ### Native functions -/

/-- What a native function names is linked: it holds no functions, or it was shown. -/
theorem Ready.named (hi : Ready host e i) (g : Given) : (Eval.named i.store g).Linked i.enclosing := by
  cases g with
  | plain l => exact Value.linked_literal l
  | native index arity => trivial
  | shown handle =>
    show (i.store.shown[handle]?.getD .nil).Linked i.enclosing
    cases hv : i.store.shown[handle]? with
    | none => trivial
    | some v => exact hi.shown v (Array.mem_of_getElem? hv)

/-- Both show the arguments to a native function. -/
theorem follows_announce (index : Nat) {vs : List Value} (hi : Ready host e i)
    (hvs : ∀ a ∈ vs, a.Linked i.enclosing) :
    Follows host e i Any (Eval.announce index vs i.store) (onStore (Eval.announce index vs) i) := by
  refine .onStore (x := Eval.announce index vs) ⟨hi.of_frames rfl rfl fun v hv => ?_, trivial⟩
  rcases Array.mem_append.1 hv with hv | hv
  · exact hi.shown v hv
  · exact hvs v (List.mem_toArray.1 hv)

/-- Both show a native function a value. -/
theorem follows_reveal {v : Value} (hi : Ready host e i) (hv : v.Linked i.enclosing) :
    Follows host e i Any (Eval.reveal v i.store) (onStore (Eval.reveal v) i) :=
  .onStore (x := Eval.reveal v) ⟨hi.reveal hv, trivial⟩

/-- What a native function asks for leaves all environments linked. -/
theorem follows_answer (r : Request) (hi : Ready host e i) :
    Follows host e i Any (Eval.answer r i.store) (answer r i) := by
  cases r with
  -- Each request is one step for both, but for a method, which is bound.
  | same a b => exact .onStore (x := Eval.answer (.same a b)) ⟨hi, trivial⟩
  | property object name =>
    show Follows host e i Any (Eval.answer (.property object name) i.store)
      ((if Eval.hasProperty i.store (Eval.named i.store object) name then
        property (Eval.named i.store object) ⟨name, 0⟩ >>= fun w => onStore (Eval.reveal w)
      else Pure.pure .nothing : Run Answer) i)
    cases hp : Eval.hasProperty i.store (Eval.named i.store object) name with
    | false =>
      rw [Eval.answer_noProperty hp]
      exact .pure hi trivial
    | true =>
      rw [Eval.answer_property hp]
      exact (follows_property _ hi (hi.named object)).bind fun w i₁ hi₁ _ hw => follows_reveal hi₁ hw
  | setField object name value =>
    refine .onStore (x := Eval.answer (.setField object name value)) ?_
    rcases Eval.answer_setField object value name i.store with ⟨k, c, -, hanswer⟩ | hanswer
    · rw [hanswer]
      exact ⟨hi.setField k name (hi.named value), trivial⟩
    · rw [hanswer]
      exact ⟨hi, trivial⟩
  | newClass name =>
    have hnext : Ready host e { i with store := { i.store with nextIdentity := i.store.nextIdentity + 1 } } :=
      hi.of_frames rfl rfl hi.shown
    have hclass : (Value.class i.store.nextIdentity ⟨name, {}⟩).Linked i.enclosing := fun n m hm => by
      cases hm
    exact .onStore (x := Eval.answer (.newClass name)) ⟨hnext.reveal hclass, trivial⟩
  | newObject c =>
    refine .onStore (x := Eval.answer (.newObject c)) ?_
    rcases Eval.answer_newObject c i.store with ⟨k, c', hc, hanswer⟩ | hanswer
    · have hclass : (Value.class k c').Linked i.enclosing := hc ▸ hi.named c
      have hobject : (Value.object i.store.fields.next c').Linked i.enclosing := hclass
      rw [hanswer]
      exact ⟨hi.newObject.reveal hobject, trivial⟩
    · rw [hanswer]
      exact ⟨hi, trivial⟩
  | print line =>
    exact .onStore (x := Eval.answer (.print line)) ⟨hi.of_frames rfl rfl hi.shown, trivial⟩

/-- The work of a native function leaves all environments linked. -/
theorem follows_perform (w : Work) (hi : Ready host e i) :
    Follows host e i LinkedValue (Eval.perform w i.store) (perform w i) := by
  induction w generalizing i with
  | give v => exact .pure hi (hi.named v)
  | fail => exact .throw hi _
  | raise => exact .throw hi _
  -- An answer, the record of it, and what is done after it.
  | ask r next ih =>
    have hrespond : Eval.perform (.ask r next) i.store =
        (Eval.answer r >>= fun a => Eval.record a >>= fun _ => Eval.perform (next a)) i.store := by
      simp only [Eval.perform, Eval.respond, bind_assoc, pure_bind]
    rw [hrespond]
    refine (follows_answer r hi).bind fun a i₁ hi₁ _ _ => ?_
    have hrecord : Follows host e i₁ Any (Eval.record a i₁.store) (onStore (Eval.record a) i₁) :=
      .onStore (x := Eval.record a) ⟨hi₁.of_frames rfl rfl hi₁.shown, trivial⟩
    exact hrecord.bind fun _ i₂ hi₂ _ _ => ih a hi₂

/-- A call of a native function. -/
theorem follows_callNative (index : Nat) (native : Native) {vs : List Value} (hi : Ready host e i)
    (hvs : ∀ a ∈ vs, a.Linked i.enclosing) :
    Follows host e i LinkedValue (Eval.callNative index native vs i.store)
      (callNative index native vs i) :=
  (follows_announce index hi hvs).bind fun _ _ hi₁ _ _ => follows_perform _ hi₁

/-! ### Calls -/

/-- Both check a call alike. -/
theorem follows_checkCall (hi : Ready host e i) (line : Int) (f : Value) (count : Nat) :
    Follows host e i Any (Eval.checkCall line f count i.store)
      (onStore (Eval.checkCall line f count) i) := by
  refine .onStore ?_
  unfold Eval.checkCall
  cases f.arity? with
  | none => exact hi
  | some expected =>
    by_cases hcount : count = expected
    · simp only [hcount, if_true]
      exact ⟨hi, trivial⟩
    · simp only [hcount, if_false]
      exact hi

/-- The line of a call changes nothing but the stop of a call that is nested too deeply. -/
theorem follows_onLine {line : Int} {x : Eval Value} {x' : Run Value}
    (hx : Follows host e i LinkedValue (x i.store) (x' i)) :
    Follows host e i LinkedValue (Eval.onLine line x i.store) (Interpreter.onLine line x' i) := by
  unfold Eval.onLine Interpreter.onLine
  generalize x i.store = r at hx
  generalize x' i = r' at hx
  cases hx with
  | ok hready hmono ha => exact .ok hready hmono ha
  | @error stop i' hready hmono =>
    cases stop with
    | overflow line' => cases line' <;> exact .error hready hmono
    | _ => exact .error hready hmono

end Interpreter

end Treewalk
