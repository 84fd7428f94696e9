import Treewalk.Eval

/-!
# Frames

What a write to a frame and a new frame change, and how a store grows: frames and instances are added
and names are bound, but nothing is taken away, no name is unbound, and a frame that holds a receiver
stays as it is.
-/

namespace Treewalk

namespace Frames

variable {α : Type} (f : Frames α)

/-- One more frame. -/
@[simp] theorem next_add (table : Bindings α) : (f.add table).next = f.next + 1 := by
  simp [add, next]

/-- Putting a name makes no frame. -/
@[simp] theorem next_put (frame : FrameId) (name : String) (a : α) :
    (f.put frame name a).next = f.next := by
  simp [put, next]

/-- Nothing is bound in a frame that is not there. -/
theorem lt_of_find? {frame : FrameId} {name : String} {a : α} (h : f.find? frame name = some a) :
    frame < f.next := by
  unfold find? at h
  cases ht : f.tables[frame]? with
  | none =>
    rw [ht] at h
    cases h
  | some table => exact (Array.getElem?_eq_some_iff.1 ht).1

/-- In a new frame the names of its table are found, in others what was found before. -/
theorem find?_add (table : Bindings α) (frame : FrameId) (name : String) :
    (f.add table).find? frame name =
      if frame = f.next then table.find? name else f.find? frame name := by
  unfold find? add next
  simp only [Array.getElem?_push]
  split <;> rfl

/-- A name that was put is found. -/
theorem find?_put_self {frame : FrameId} (h : frame < f.next) (name : String) (a : α) :
    (f.put frame name a).find? frame name = some a := by
  unfold find? put
  unfold next at h
  simp only [Array.getElem?_modify, if_true, Array.getElem?_eq_getElem h]
  exact Bindings.find?_put_self _ name a

/-- A write to one name leaves every other name as it was. -/
theorem find?_put_of_ne {frame frame' : FrameId} {name name' : String} (a : α)
    (h : ¬(frame' = frame ∧ name' = name)) :
    (f.put frame name a).find? frame' name' = f.find? frame' name' := by
  unfold find? put
  simp only [Array.getElem?_modify]
  by_cases hframe : frame = frame'
  · subst hframe
    have hname : name' ≠ name := fun hn => h ⟨rfl, hn⟩
    rw [if_pos rfl]
    cases f.tables[frame]? with
    | none => rfl
    | some table => exact Bindings.find?_put_of_ne table a hname
  · rw [if_neg hframe]

/-- After a write a name has the value that was written to it, or the value it had before. -/
theorem find?_put_cases {frame frame' : FrameId} {name name' : String} {a v : α}
    (h : (f.put frame name a).find? frame' name' = some v) :
    (frame' = frame ∧ name' = name ∧ v = a) ∨ f.find? frame' name' = some v := by
  by_cases hsame : frame' = frame ∧ name' = name
  · obtain ⟨rfl, rfl⟩ := hsame
    have hlt := (f.put frame' name' a).lt_of_find? h
    rw [next_put] at hlt
    rw [f.find?_put_self hlt name' a] at h
    exact .inl ⟨rfl, rfl, (Option.some.inj h).symm⟩
  · rw [f.find?_put_of_ne a hsame] at h
    exact .inr h

end Frames

namespace Store

/-- A name is bound in a frame. -/
def Binds (s : Store) (frame : FrameId) (name : String) : Prop :=
  ∃ v, s.frames.find? frame name = some v

/-- A store with one more frame. -/
def withFrame (s : Store) (table : Bindings Value) : Store :=
  { s with frames := s.frames.add table }

/-- A store with a name bound in a frame. -/
def withName (s : Store) (frame : FrameId) (name : String) (v : Value) : Store :=
  { s with frames := s.frames.put frame name v }

variable {s s' s'' : Store}

/-- Names are bound in frames that were made. -/
theorem Binds.lt {frame : FrameId} {name : String} (h : s.Binds frame name) :
    frame < s.frames.next := by
  obtain ⟨v, hv⟩ := h
  exact s.frames.lt_of_find? hv

/-- A new frame binds the names of its table. -/
theorem binds_newFrame {table : Bindings Value} {name : String} :
    (s.withFrame table).Binds s.frames.next name ↔ ∃ v, table.find? name = some v := by
  unfold Binds withFrame
  simp only [Frames.find?_add, if_true]

/-- The other frames bind what they did. -/
theorem binds_oldFrame {table : Bindings Value} {frame : FrameId} {name : String}
    (h : frame ≠ s.frames.next) :
    (s.withFrame table).Binds frame name ↔ s.Binds frame name := by
  unfold Binds withFrame
  simp only [Frames.find?_add, if_neg h]

/-- Putting a name binds it, and nothing else. -/
theorem binds_withName {frame frame' : FrameId} {name name' : String} {v : Value}
    (h : frame < s.frames.next) : (s.withName frame name v).Binds frame' name' ↔
      (frame' = frame ∧ name' = name) ∨ s.Binds frame' name' := by
  unfold Binds withName
  by_cases hsame : frame' = frame ∧ name' = name
  · obtain ⟨rfl, rfl⟩ := hsame
    simp [s.frames.find?_put_self h name' v]
  · simp [s.frames.find?_put_of_ne v hsame, hsame]

/-- Frames and instances may be added and names may be bound, but nothing is taken away, and a frame
that holds a receiver is never written to. Only the global frame may hold another thing by the name of
the receiver. -/
structure Grows (s s' : Store) : Prop where
  next : s.frames.next ≤ s'.frames.next
  binds : ∀ frame name, s.Binds frame name → s'.Binds frame name
  receiver : ∀ frame, frame ≠ globalFrame → s.Binds frame thisName → ∀ name,
    s'.frames.find? frame name = s.frames.find? frame name
  instances : s.fields.next ≤ s'.fields.next

namespace Grows

/-- Nothing happened. -/
theorem refl (s : Store) : s.Grows s :=
  ⟨Nat.le_refl _, fun _ _ h => h, fun _ _ _ _ => rfl, Nat.le_refl _⟩

/-- One thing happened after the other. -/
theorem trans (h : s.Grows s') (h' : s'.Grows s'') : s.Grows s'' :=
  ⟨Nat.le_trans h.next h'.next, fun frame name hb => h'.binds frame name (h.binds frame name hb),
    fun frame hf hb name => (h'.receiver frame hf (h.binds frame thisName hb) name).trans
      (h.receiver frame hf hb name), Nat.le_trans h.instances h'.instances⟩

/-- A store whose frames are the same. -/
theorem of_frames (h : s'.frames = s.frames) (hinstances : s.fields.next ≤ s'.fields.next) :
    s.Grows s' := by
  refine ⟨Nat.le_of_eq (by rw [h]), fun frame name hb => ?_, fun frame _ _ name => ?_, hinstances⟩
  · unfold Binds
    rw [h]
    exact hb
  · rw [h]

/-- A new frame. -/
theorem withFrame (s : Store) (table : Bindings Value) : s.Grows (s.withFrame table) := by
  refine ⟨?_, fun frame name hb => ?_, fun frame _ hb name => ?_, Nat.le_refl _⟩
  · show s.frames.next ≤ (s.frames.add table).next
    rw [Frames.next_add]
    exact Nat.le_succ _
  · exact (binds_oldFrame (Nat.ne_of_lt hb.lt)).2 hb
  · show (s.frames.add table).find? frame name = _
    rw [Frames.find?_add, if_neg (Nat.ne_of_lt hb.lt)]

/-- A name is put in a frame. If the frame holds a receiver, it stays what it was (`hframe`). -/
theorem withName {frame : FrameId} {name : String} (h : frame < s.frames.next)
    (hframe : frame ≠ globalFrame → ¬s.Binds frame thisName) (v : Value) :
    s.Grows (s.withName frame name v) := by
  refine ⟨Nat.le_of_eq (s.frames.next_put frame name v).symm, fun frame' name' hb => ?_,
    fun frame' hglobal hb name' => ?_, Nat.le_refl _⟩
  · rw [binds_withName h]
    exact .inr hb
  · have hother : ¬(frame' = frame ∧ name' = name) := by
      rintro ⟨rfl, -⟩
      exact hframe hglobal hb
    exact s.frames.find?_put_of_ne v hother

/-- The fields of an instance hold no names. -/
theorem setField (s : Store) (i : Nat) (name : String) (v : Value) :
    s.Grows { s with fields := s.fields.put i name v } :=
  .of_frames rfl (Nat.le_of_eq (s.fields.next_put i name v).symm)

end Grows

end Store

/-! ## Reads and writes -/

namespace Eval

variable (e : Environment) (n : Name) (v : Value) (s : Store)

/-- A global name is read in the global frame; it may be undefined. -/
theorem read_global : read e n .global s =
    match s.frames.find? globalFrame n.text with
    | some v => .ok v s
    | none => .error (.fault (some n.line) (.undefinedVariable n.text)) s := by
  change (match s.frames.find? globalFrame n.text with
    | some v => (pure v : Eval Value)
    | none => faultAt n.line (.undefinedVariable n.text)) s = _
  cases s.frames.find? globalFrame n.text <;> rfl

/-- A local name is read in the frame that its address says. -/
theorem read_scope (d : Nat) : read e n (.scope d) s =
    match (e.ancestor? d).bind (s.frames.find? · n.text) with
    | some v => .ok v s
    | none => .error (.missing n.text) s := by
  change (frameAt e n d >>= fun f => get >>= fun s => match s.frames.find? f n.text with
    | some v => (pure v : Eval Value)
    | none => throw (Stop.missing n.text)) s = _
  -- The address leads to no frame, or to one that has the name or not.
  unfold frameAt
  cases e.ancestor? d with
  | none => rfl
  | some f =>
    change (match s.frames.find? f n.text with
      | some v => (pure v : Eval Value)
      | none => throw (Stop.missing n.text)) s = _
    rw [Option.bind_some]
    cases s.frames.find? f n.text <;> rfl

/-- A global name is assigned in the global frame, if it is there. -/
theorem write_global : write e n .global v s =
    match s.frames.find? globalFrame n.text with
    | some _ => .ok () (s.withName globalFrame n.text v)
    | none => .error (.fault (some n.line) (.undefinedVariable n.text)) s := by
  change (match s.frames.find? globalFrame n.text with
    | some _ => define globalFrame n.text v
    | none => faultAt n.line (.undefinedVariable n.text)) s = _
  cases s.frames.find? globalFrame n.text <;> rfl

/-- A local name is assigned in the frame that its address says. -/
theorem write_scope (d : Nat) : write e n (.scope d) v s =
    match e.ancestor? d with
    | some f => .ok () (s.withName f n.text v)
    | none => .error (.missing n.text) s := by
  change (frameAt e n d >>= fun f => define f n.text v) s = _
  unfold frameAt
  cases e.ancestor? d <;> rfl

/-- A property of an instance: its fields come first, and then the methods of its class. -/
theorem property_object (i : Nat) (c : Class) : property (.object i c) n s =
    match s.fields.find? i n.text with
    | some field => .ok field s
    | none =>
      match c.methods.find? n.text with
      | some m => bindMethod m (.object i c) s
      | none => .error (.fault (some n.line) (.undefinedProperty n.text)) s := by
  change (match s.fields.find? i n.text with
    | some field => (pure field : Eval Value)
    | none =>
      match c.methods.find? n.text with
      | some m => bindMethod m (.object i c)
      | none => faultAt n.line (.undefinedProperty n.text)) s = _
  -- Fields hide methods.
  cases s.fields.find? i n.text with
  | some field => rfl
  | none => cases c.methods.find? n.text <;> rfl

end Eval

/-! ## Native functions -/

/-- A call of a native function. -/
theorem call_native (host : Host) (d i arity : Nat) (vs : List Value) :
    call host (d + 1) (.native i arity) vs =
      match host.natives[i]? with
      | some native => Eval.callNative i native vs
      | none => throw (.fault none .notCallable) := rfl

/-! ## Receivers and parameters -/

/-- The frame of a bound method holds the receiver and nothing else. -/
theorem find?_receiver {receiver v : Value} {name : String} :
    (({} : Bindings Value).put thisName receiver).find? name = some v ↔
      name = thisName ∧ v = receiver := by
  constructor
  · intro h
    by_cases hname : name = thisName
    · subst hname
      rw [Bindings.find?_put_self] at h
      exact ⟨rfl, (Option.some.inj h).symm⟩
    · rw [Bindings.find?_put_of_ne _ _ hname] at h
      cases h
  · rintro ⟨rfl, rfl⟩
    exact Bindings.find?_put_self _ _ _

/-- Parameters and arguments, one pair after the other. Of two parameters of one name the last counts. -/
theorem parameterTable_eq (parameters : List Name) (vs : List Value) : parameterTable parameters vs =
    (parameters.zip vs).foldl (fun table pair => table.put pair.1.text pair.2) {} := rfl

/-- Each parameter is bound on top of what the table binds before. -/
theorem find?_foldl_put {ps : List Name} {vs : List Value} {table : Bindings Value}
    (hlength : ps.length = vs.length) (name : String) :
    (∃ v, ((ps.zip vs).foldl (fun table pair => table.put pair.1.text pair.2) table).find? name =
      some v) ↔ name ∈ ps.map Name.text ∨ ∃ v, table.find? name = some v := by
  induction ps generalizing vs table with
  | nil => simp
  | cons p ps ih =>
    cases vs with
    | nil => cases hlength
    | cons v vs =>
      rw [List.zip_cons_cons, List.foldl_cons, ih (Nat.succ.inj hlength), List.map_cons, List.mem_cons]
      -- The name that is put is found; other names are found as they were.
      by_cases hname : name = p.text
      · subst hname
        simp
      · rw [Bindings.find?_put_of_ne table v hname]
        simp [hname]

/-- A routine's own frame binds its parameters, and nothing else, if there are enough arguments. -/
theorem find?_parameterTable {parameters : List Name} {vs : List Value}
    (hlength : parameters.length = vs.length) (name : String) :
    (∃ v, (parameterTable parameters vs).find? name = some v) ↔
      name ∈ parameters.map Name.text := by
  have hempty : ¬∃ v, ({} : Bindings Value).find? name = some v := by
    rintro ⟨v, hv⟩
    cases hv
  rw [parameterTable_eq, find?_foldl_put hlength]
  simp only [hempty, or_false]

/-- What is found was put or was there. -/
theorem mem_of_find?_foldl_put {pairs : List (Name × Value)} {table : Bindings Value} {name : String}
    {v : Value}
    (h : (pairs.foldl (fun table pair => table.put pair.1.text pair.2) table).find? name = some v) :
    v ∈ pairs.map Prod.snd ∨ table.find? name = some v := by
  induction pairs generalizing table with
  | nil => exact .inr h
  | cons pair pairs ih =>
    -- The last pair of a name is the one that is found.
    rcases ih h with h | h
    · exact .inl (List.mem_cons_of_mem _ h)
    · by_cases hname : name = pair.1.text
      · subst hname
        rw [Bindings.find?_put_self] at h
        rw [← Option.some.inj h]
        exact .inl List.mem_cons_self
      · rw [Bindings.find?_put_of_ne table _ hname] at h
        exact .inr h

/-- The values in a routine's own frame are its arguments. -/
theorem mem_of_find?_parameterTable {parameters : List Name} {vs : List Value} {name : String}
    {v : Value} (h : (parameterTable parameters vs).find? name = some v) : v ∈ vs := by
  rw [parameterTable_eq] at h
  rcases mem_of_find?_foldl_put h with h | h
  · obtain ⟨⟨p, v'⟩, hpair, rfl⟩ := List.mem_map.1 h
    exact (List.of_mem_zip hpair).2
  · cases h

end Treewalk
