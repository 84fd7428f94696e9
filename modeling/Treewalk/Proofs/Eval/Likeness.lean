import Treewalk.Proofs.Eval.Frames
import Mathlib.Data.List.Forall2
import Mathlib.Logic.Relator

/-!
# Values that are alike

Two runs of programs that differ in their code only hold values that are alike: of the same kind, with
the same identities and names, and with functions and methods that are related in some way. A `Likeness`
is such a way. Whatever looks at the outside of values only cannot tell values apart that are alike:
neither operators nor native functions can, since values that are alike have one `View`. So native
functions are told the same in the two runs (`Store.Told`).

Tables are related if they hold related things under related names.
-/

namespace Treewalk

/-! ## Tables -/

section

variable {α β : Type} {key key' : String → String → Prop} {R R' : α → β → Prop}

/-- Two tables hold related things under related names. -/
def Bindings.Related (key : String → String → Prop) (R : α → β → Prop) (b : Bindings α)
    (b' : Bindings β) : Prop :=
  ∀ name name', key name name' → Option.Rel R (b.find? name) (b'.find? name')

/-- Parts that may be missing are related by less. -/
theorem option_rel_imp {x : Option α} {x' : Option β} (h : Option.Rel R x x')
    (hR : ∀ a a', R a a' → R' a a') : Option.Rel R' x x' := by
  cases h with
  | none => exact .none
  | some h => exact .some (hR _ _ h)

/-- Either both are there or neither is. -/
theorem option_rel_isSome {x : Option α} {x' : Option β} (h : Option.Rel R x x') :
    x'.isSome = x.isSome := by
  cases h <;> rfl

namespace Bindings.Related

variable {b : Bindings α} {b' : Bindings β} {x : α} {x' : β} {name name' : String}

/-- Tables without entries are related. -/
theorem empty : Bindings.Related key R {} {} := fun _ _ _ => .none

/-- Tables are related by less, and under fewer keys. -/
theorem imp (h : b.Related key R b') (hkey : ∀ name name', key' name name' → key name name')
    (hR : ∀ x x', R x x' → R' x x') : b.Related key' R' b' := by
  intro name name' hname
  exact option_rel_imp (h name name' (hkey name name' hname)) hR

/-- Tables stay related when related things are bound to related names. -/
theorem put (h : b.Related key R b') (hkey : Relator.BiUnique key) (hname : key name name')
    (hx : R x x') : (b.put name x).Related key R (b'.put name' x') := by
  intro other other' hother
  by_cases heq : other = name
  · subst heq
    obtain rfl : other' = name' := hkey.2 hother hname
    rw [find?_put_self, find?_put_self]
    exact .some hx
  · have heq' : other' ≠ name' := fun heq' => heq (hkey.1 hother (heq' ▸ hname))
    rw [find?_put_of_ne _ _ heq, find?_put_of_ne _ _ heq']
    exact h other other' hother

end Bindings.Related

/-- Two lists of frames are related one by one, each by the names that it may hold. -/
def Frames.Related (key : FrameId → String → String → Prop) (R : α → β → Prop) (f : Frames α)
    (f' : Frames β) : Prop :=
  ∀ i, Option.Rel (Bindings.Related (key i) R) f.tables[i]? f'.tables[i]?

namespace Frames.Related

variable {keys keys' : FrameId → String → String → Prop} {f : Frames α} {f' : Frames β} {x : α} {x' : β}
  {name name' : String} {i : FrameId}

/-- The same for frames, as far as they were made. -/
theorem imp (h : f.Related keys R f')
    (hkey : ∀ i < f.next, ∀ name name', keys' i name name' → keys i name name')
    (hR : ∀ x x', R x x' → R' x x') : f.Related keys' R' f' := by
  intro i
  have hi := h i
  have hlt : ∀ table, f.tables[i]? = some table → i < f.next := fun _ ht =>
    (Array.getElem?_eq_some_iff.1 ht).1
  generalize f.tables[i]? = table at hi hlt
  generalize f'.tables[i]? = table' at hi
  cases hi with
  | none => exact .none
  | some ht => exact .some (ht.imp (hkey i (hlt _ rfl)) hR)

/-- As many frames were made in both. -/
theorem next_eq (h : f.Related keys R f') : f'.next = f.next := by
  have hout : ∀ i : FrameId, f.tables[i]? = none ↔ f'.tables[i]? = none := by
    intro i
    have hi := h i
    generalize f.tables[i]? = table at hi
    generalize f'.tables[i]? = table' at hi
    cases hi <;> simp
  have hsize : ∀ i : FrameId, f.next ≤ i ↔ f'.next ≤ i := fun i => by
    have hi := hout i
    rwa [Array.getElem?_eq_none_iff, Array.getElem?_eq_none_iff] at hi
  exact Nat.le_antisymm ((hsize _).1 (Nat.le_refl _)) ((hsize _).2 (Nat.le_refl _))

/-- Related names of a frame are bound to related things. -/
theorem find? (h : f.Related keys R f') (hname : keys i name name') :
    Option.Rel R (f.find? i name) (f'.find? i name') := by
  unfold Frames.find?
  have hi := h i
  generalize f.tables[i]? = table at hi
  generalize f'.tables[i]? = table' at hi
  cases hi with
  | none => exact .none
  | some ht => exact ht name name' hname

/-- Related values may be put under related names. -/
theorem put (h : f.Related keys R f') (hkey : Relator.BiUnique (keys i)) (hname : keys i name name')
    (hx : R x x') : (f.put i name x).Related keys R (f'.put i name' x') := by
  intro j
  have hj := h j
  simp only [Frames.put, Array.getElem?_modify]
  -- The names are put in one table, which is there in both or in neither.
  split
  · next heq =>
    subst heq
    generalize f.tables[i]? = table at hj
    generalize f'.tables[i]? = table' at hj
    cases hj with
    | none => exact .none
    | some ht => exact .some (ht.put hkey hname hx)
  · exact hj

/-- Related tables may be added as new frames. -/
theorem add (h : f.Related keys R f') {table : Bindings α} {table' : Bindings β}
    (ht : table.Related (keys f.next) R table') : (f.add table).Related keys R (f'.add table') := by
  intro j
  have hnext := h.next_eq
  unfold next at hnext ht
  simp only [Frames.add, Array.getElem?_push, hnext]
  split
  · next heq =>
    subst heq
    exact .some ht
  · exact h j

/-- Frames are related to themselves if what they hold is. -/
theorem self {f : Frames α} {R : α → α → Prop}
    (hkey : ∀ i < f.next, ∀ name name', keys i name name' → name' = name)
    (hR : ∀ i name x, f.find? i name = some x → R x x) : f.Related keys R f := by
  intro i
  -- Each table is the same in both, and what it holds is related to itself.
  cases ht : f.tables[i]? with
  | none => exact .none
  | some table =>
    refine .some fun name name' hname => ?_
    obtain rfl : name' = name := hkey i (Array.getElem?_eq_some_iff.1 ht).1 name name' hname
    cases hx : table.find? name' with
    | none => exact .none
    | some x =>
      refine .some (hR i name' x ?_)
      unfold Frames.find?
      rw [ht]
      exact hx

end Frames.Related

end

/-! ## Values -/

/-- Two closures differ in the code of their routines only, and take as many arguments. -/
structure Closure.SameOutside (c c' : Closure) : Prop where
  name : c'.name = c.name
  environment : c'.environment = c.environment
  isInitializer : c'.isInitializer = c.isInitializer
  arity : c'.routine.parameters.length = c.routine.parameters.length

/-- Two closures look the same where they are shown and called. The frames around them may be others. -/
structure Closure.SameFace (c c' : Closure) : Prop where
  name : c'.name = c.name
  isInitializer : c'.isInitializer = c.isInitializer
  arity : c'.routine.parameters.length = c.routine.parameters.length

/-- Closures that differ in their frames only look the same. -/
theorem Closure.SameOutside.face {c c' : Closure} (h : c.SameOutside c') : c.SameFace c' :=
  ⟨h.name, h.isInitializer, h.arity⟩

/-- A way for values to be alike: how their functions and their methods are related. -/
structure Likeness where
  function : Closure → Closure → Prop
  method : Closure → Closure → Prop

/-- Functions and methods look the same where they are shown and called. -/
structure Likeness.KeepsFaces (L : Likeness) : Prop where
  function : ∀ c c', L.function c c' → c.SameFace c'
  method : ∀ c c', L.method c c' → c.SameFace c'

/-- A likeness that holds more often. -/
structure Likeness.Weaker (L L' : Likeness) : Prop where
  function : ∀ c c', L.function c c' → L'.function c c'
  method : ∀ c c', L.method c c' → L'.method c c'

/-- Two classes have the same name, and related methods under the same names. -/
structure Class.Alike (L : Likeness) (c c' : Class) : Prop where
  name : c'.name = c.name
  methods : c.methods.Related Eq L.method c'.methods

/-- Two values are alike: of one kind, with the same identity, and with related functions and methods. -/
inductive Value.Alike (L : Likeness) : Value → Value → Prop
  | nil : Alike L .nil .nil
  | boolean (b : Bool) : Alike L (.boolean b) (.boolean b)
  | number (x : Float) : Alike L (.number x) (.number x)
  | string (s : String) : Alike L (.string s) (.string s)
  | native (index arity : Nat) : Alike L (.native index arity) (.native index arity)
  | function (i : Nat) {c c' : Closure} (h : L.function c c') : Alike L (.function i c) (.function i c')
  | class (i : Nat) {c c' : Class} (h : c.Alike L c') : Alike L (.class i c) (.class i c')
  | object (i : Nat) {c c' : Class} (h : c.Alike L c') : Alike L (.object i c) (.object i c')

section

variable {L L' : Likeness} {a a' b b' v : Value} {c c' : Class}

/-- Equality relates every name to one name. -/
theorem biUnique_eq {α : Type} : Relator.BiUnique (@Eq α) :=
  ⟨fun _ _ _ h h' => h.trans h'.symm, fun _ _ _ h h' => h.symm.trans h'⟩

/-- Under one name classes that are alike have methods that are alike, or both none. -/
theorem Class.Alike.method (h : c.Alike L c') (name : String) :
    Option.Rel L.method (c.methods.find? name) (c'.methods.find? name) :=
  h.methods name name rfl

/-- Classes stay alike if closures are related by less. -/
theorem Class.Alike.weaken (h : c.Alike L c') (hL : L.Weaker L') : c.Alike L' c' :=
  ⟨h.name, h.methods.imp (fun _ _ hname => hname) hL.method⟩

namespace Value.Alike

/-- So do values. -/
theorem weaken (h : a.Alike L a') (hL : L.Weaker L') : a.Alike L' a' := by
  cases h with
  | function i hc => exact .function i (hL.function _ _ hc)
  | «class» i hc => exact .class i (hc.weaken hL)
  | object i hc => exact .object i (hc.weaken hL)
  | _ => constructor

/-- Values that are alike are printed alike. -/
theorem display (h : a.Alike L a') (hL : L.KeepsFaces) : a'.display = a.display := by
  cases h with
  | function i hc =>
    unfold Value.display
    simp only [(hL.function _ _ hc).name]
  | «class» i hc =>
    unfold Value.display
    simp only [hc.name]
  | object i hc =>
    unfold Value.display
    simp only [hc.name]
  | _ => rfl

/-- Values that are alike take as many arguments. -/
theorem arity (h : a.Alike L a') (hL : L.KeepsFaces) : a'.arity? = a.arity? := by
  cases h with
  | function i hc => exact congrArg some (hL.function _ _ hc).arity
  | «class» i hc =>
    unfold Value.arity?
    simp only
    have hinit := hc.method initializerName
    generalize Bindings.find? _ initializerName = m at hinit ⊢
    generalize Bindings.find? _ initializerName = m' at hinit ⊢
    cases hinit with
    | none => rfl
    | some hm => exact congrArg some (hL.method _ _ hm).arity
  | _ => rfl

/-- Values that are alike look the same to native functions. -/
theorem view (h : a.Alike L a') (hL : L.KeepsFaces) : a'.view = a.view := by
  have harity := h.arity hL
  have hdisplay := h.display hL
  cases h with
  | function | «class» | object =>
    unfold Value.view
    simp only [harity, hdisplay]
  | _ => rfl

/-- Both are true or neither is. -/
theorem isTruthy (h : a.Alike L a') : a'.isTruthy = a.isTruthy := by cases h <;> rfl

/-- Both decide a logical operator or neither does. -/
theorem isDecided (h : a.Alike L a') (op : LogicalOp) : op.isDecided a' = op.isDecided a := by
  cases op <;> simp [LogicalOp.isDecided, h.isTruthy]

/-- Values that are alike are equal to the same values, as far as the language tells. -/
theorem same (h : a.Alike L a') (hb : b.Alike L b') : a'.same b' = a.same b := by
  cases h <;> cases hb <;> rfl

/-- An operator makes the same of operands that are alike. -/
theorem unary (h : a.Alike L a') (op : UnaryOp) : op.apply a' = op.apply a := by
  cases op with
  | not => exact congrArg (fun t => Except.ok (Value.boolean !t)) h.isTruthy
  | negate => cases h <;> rfl

/-- An operator gives the same, for operands that are alike. -/
theorem binary (h : a.Alike L a') (hb : b.Alike L b') (op : BinaryOp) :
    op.apply a' b' = op.apply a b := by
  cases op with
  | equal => exact congrArg (fun t => Except.ok (Value.boolean t)) (h.same hb)
  | notEqual => exact congrArg (fun t => Except.ok (Value.boolean !t)) (h.same hb)
  | _ => cases h <;> cases hb <;> rfl

/-- What a literal stands for is alike to itself. -/
theorem of_literal (l : Literal) : l.value.Alike L l.value := by cases l <;> constructor

/-- What an operator makes is like itself. -/
theorem of_unary {op : UnaryOp} (h : op.apply a = .ok v) : v.Alike L v := by
  obtain ⟨l, rfl⟩ := UnaryOp.exists_literal h
  exact of_literal l

/-- What an operator gives is alike to itself: it is no function and holds none. -/
theorem of_binary {op : BinaryOp} (h : op.apply a b = .ok v) : v.Alike L v := by
  obtain ⟨l, rfl⟩ := BinaryOp.exists_literal h
  exact of_literal l

end Value.Alike

end

/-! ## What native functions know -/

/-- Native functions were told the same in two runs, and the values that they were shown are alike. -/
structure Store.Told (L : Likeness) (s s' : Store) : Prop where
  shown : List.Forall₂ (Value.Alike L) s.shown.toList s'.shown.toList
  events : s'.events = s.events

/-- Values that are alike are shown under the same numbers with the same looks. -/
theorem Eval.sights_alike {L : Likeness} (hL : L.KeepsFaces) {vs vs' : List Value}
    (hvs : List.Forall₂ (Value.Alike L) vs vs') (handle : Nat) : sights handle vs' = sights handle vs := by
  induction hvs generalizing handle with
  | nil => rfl
  | cons hv _ ih =>
    unfold sights
    rw [hv.view hL, ih]

namespace Store.Told

variable {L L' : Likeness} {s s' : Store}

/-- What native functions were told is alike if closures are related by less. -/
theorem weaken (h : s.Told L s') (hL : L.Weaker L') : s.Told L' s' :=
  ⟨h.shown.imp fun _ _ hv => hv.weaken hL, h.events⟩

/-- Native functions were shown as many values. -/
theorem size_eq (h : s.Told L s') : s'.shown.size = s.shown.size := by
  have hlength := h.shown.length_eq
  rwa [Array.length_toList, Array.length_toList, eq_comm] at hlength

/-- The values that a native function names are alike. -/
theorem named (h : s.Told L s') (g : Given) : (Eval.named s g).Alike L (Eval.named s' g) := by
  cases g with
  | plain l => exact .of_literal l
  | native index arity => exact .native index arity
  | shown handle =>
    show (s.shown[handle]?.getD .nil).Alike L (s'.shown[handle]?.getD .nil)
    -- As many values were shown in both, and each is alike to the one of the same number.
    rw [← Array.getElem?_toList, ← Array.getElem?_toList]
    have hshown := h.shown
    rw [List.forall₂_iff_get] at hshown
    by_cases hlt : handle < s.shown.toList.length
    · have hlt' : handle < s'.shown.toList.length := hshown.1 ▸ hlt
      rw [List.getElem?_eq_getElem hlt, List.getElem?_eq_getElem hlt']
      exact hshown.2 handle hlt hlt'
    · have hlt' : ¬handle < s'.shown.toList.length := hshown.1 ▸ hlt
      rw [List.getElem?_eq_none (Nat.le_of_not_lt hlt), List.getElem?_eq_none (Nat.le_of_not_lt hlt')]
      exact .nil

end Store.Told

/-- Two statements end in the same way, and what they return is alike. -/
inductive Outcome.Alike (L : Likeness) : Outcome → Outcome → Prop
  | normal : Alike L .normal .normal
  | returned {v v' : Value} (h : v.Alike L v') : Alike L (.returned v) (.returned v')

end Treewalk
