import Treewalk.Proofs.Eval.Activation
import Mathlib.Data.List.Infix

/-!
# Frames and scopes

Resolving and running are two walks through a program. `History` holds all visits of the one and all
activations of the other, and what they have to do with each other is said here: an activation runs the
resolved node of a visit, and the frames around it stand for the scopes around the visit, one for one
(`Level`). A `World` remembers for each frame what it was made for.

A frame that stands for the scope of a class holds the receiver of the method that it was made for,
and nothing else (`Bound`). A value is `Genuine` if each function in it was made in frames that stand
for the scopes around its routine, and a store is `Good` if it holds nothing else. All of this lasts
while a store grows.
-/

namespace Treewalk

/-- Everything that resolving visits and everything that happens in runs. -/
structure History where
  visits : Visit → Prop
  happens : Host → Activation → Prop
  parts : ∀ {v w}, visits v → w ∈ v.parts → visits w
  calls : ∀ {host a b}, happens host a → Calls host a b → happens host b
  sound : ∀ {v}, visits v → v.Sound

/-- What each frame was made for. The global frame was made for no scope. -/
abbrev World := List (Option Opener)

/-! ## Levels -/

/-- Frames that stand for scopes, level by level, with the global frame at the end. What is said of a
level may speak of the frames further out. -/
inductive Levels (L : FrameId → Scope → Opener → List FrameId → Prop) :
    List FrameId → List Scope → List Opener → Prop
  | global : Levels L [globalFrame] [] []
  | inner {f : FrameId} {σ : Scope} {o : Opener} {fs : List FrameId} {σs : List Scope}
    {os : List Opener} (h : L f σ o fs) (hs : Levels L fs σs os) :
    Levels L (f :: fs) (σ :: σs) (o :: os)

namespace Levels

variable {L L' : FrameId → Scope → Opener → List FrameId → Prop} {fs : List FrameId}
  {σs : List Scope} {os : List Opener}

/-- What is said of a level may be replaced by what follows from it and from its frame being in the list. -/
theorem mono_of_mem (h : Levels L fs σs os)
    (hL : ∀ f σ o gs, f ∈ fs → L f σ o gs → L' f σ o gs) : Levels L' fs σs os := by
  induction h with
  | global => exact .global
  | inner hl _ ih =>
    exact .inner (hL _ _ _ _ List.mem_cons_self hl)
      (ih fun f σ o gs hf => hL f σ o gs (List.mem_cons_of_mem _ hf))

/-- What is said of a level may be replaced by what follows from it. -/
theorem mono (h : Levels L fs σs os) (hL : ∀ f σ o gs, L f σ o gs → L' f σ o gs) :
    Levels L' fs σs os :=
  h.mono_of_mem fun f σ o gs _ => hL f σ o gs

/-- There is a frame for each opener, and the global frame. -/
theorem length_frames (h : Levels L fs σs os) : fs.length = os.length + 1 := by
  induction h with
  | global => rfl
  | inner hl _ ih => rw [List.length_cons, ih, List.length_cons]

/-- What is said twice of the levels is said of each twice. -/
theorem and (h : Levels L fs σs os) (h' : Levels L' fs σs os) :
    Levels (fun f σ o fs => L f σ o fs ∧ L' f σ o fs) fs σs os := by
  induction h with
  | global => exact .global
  | inner hl _ ih =>
    cases h' with
    | inner hl' hs' => exact .inner ⟨hl, hl'⟩ (ih hs')

/-- What is known of the scopes and what opened them is known of the levels. -/
theorem and_forall₂ {R : Scope → Opener → Prop} (h : Levels L fs σs os)
    (hR : List.Forall₂ R σs os) : Levels (fun f σ o fs => L f σ o fs ∧ R σ o) fs σs os := by
  induction h with
  | global => exact .global
  | inner hl _ ih =>
    cases hR with
    | cons hr hrs => exact .inner ⟨hl, hr⟩ (ih hrs)

/-- Every scope has a frame and an opener. -/
theorem get (h : Levels L fs σs os) {d : Nat} {σ : Scope} (hσ : σs[d]? = some σ) :
    ∃ f o, fs[d]? = some f ∧ os[d]? = some o ∧ L f σ o (fs.drop (d + 1)) := by
  induction h generalizing d with
  | global => cases hσ
  | inner hl _ ih =>
    cases d with
    | zero =>
      cases hσ
      exact ⟨_, _, rfl, rfl, hl⟩
    | succ d => exact ih hσ

end Levels

namespace History

variable (h : History)

/-- A frame was made for a scope by what opens the scope: the block was executed, the routine was
called, or the method of the class was bound, inside the given frames. -/
def Opens (f : FrameId) (around : List FrameId) : Opener → Prop
  | .block c body => ∃ host d e s,
      h.happens host (.node (d + 1) e (.statement ((Stmt.block body).resolve c).value) s) ∧
        e.chain = around ∧ s.frames.next = f
  | .routine c kind r => ∃ host d i closure vs s,
      h.happens host (.call (d + 1) (.function i closure) vs s) ∧
        closure.routine = (r.resolve c kind).value ∧ closure.environment.chain = around ∧
        s.frames.next = f
  | .receiver c ms => ∃ host m receiver s, h.happens host (.bind m receiver s) ∧
      (∃ n, (n, m.routine) ∈ (Routine.resolveMethods c ms).value) ∧
        m.environment.chain = around ∧ s.frames.next = f

/-- A visit lies in the initializer of a local variable with so many scopes around it, and the
declaration of the variable was begun on a frame. -/
def Pending (v : Visit) (f : FrameId) (scopes : Nat) (n : String) : Prop :=
  ∃ p name x host d e s, name.text = n ∧ h.visits ⟨p, .statement (.var name (some x))⟩ ∧
    p.openers.length = scopes ∧ Visit.Reaches ⟨(p.put n false).inside, .expression x⟩ v ∧
    h.happens host (.node d e (Visit.resolved ⟨p, .statement (.var name (some x))⟩) s) ∧ e.own = f

/-- A method was bound to a receiver in a frame of its own, and the frame holds the receiver. -/
structure Bound (s : Store) (m : Closure) (receiver : Value) (f : FrameId) : Prop where
  happened : ∃ host s₀, h.happens host (.bind m receiver s₀) ∧ s₀.frames.next = f
  inner : f ≠ globalFrame
  held : s.frames.find? f thisName = some receiver

/-- A visit lies in a method that was bound in a frame, and the class of the method lies in the frames
further out. -/
def InMethod (s : Store) (v : Visit) (f : FrameId) (fs : List FrameId) : Prop :=
  ∃ p kind r m receiver, Visit.Reaches ⟨p, .routine kind r⟩ v ∧ p.openers.length = fs.length ∧
    m.routine = (r.resolve p.scoping kind).value ∧ m.environment.chain = fs ∧ h.Bound s m receiver f

/-- A frame stands for a scope around a visit. It was made for that scope and later than the frames
further out, and it binds every name of the scope that has its value; a name that has none yet is that
of a declaration that the visit lies in. A frame that stands for the scope of a class was made for the
method that the visit lies in. -/
structure Level (W : World) (s : Store) (v : Visit) (f : FrameId) (σ : Scope) (o : Opener)
    (fs : List FrameId) : Prop where
  owner : W[f]? = some (some o)
  opens : h.Opens f fs o
  below : ∀ g ∈ fs, g < f
  ready : ∀ n, (n, true) ∈ σ → s.Binds f n
  pending : ∀ n, (n, false) ∈ σ → h.Pending v f fs.length n
  receiver : ∀ c ms, o = .receiver c ms → h.InMethod s v f fs

/-- The frames of an environment stand for the scopes around a visit. -/
def Fits (W : World) (s : Store) (v : Visit) (e : Environment) : Prop :=
  Levels (h.Level W s v) e.chain v.place.scoping.scopes v.place.openers

/-! ## Values -/

/-- A function that was made by binding a method to a receiver. -/
def Fetched (s : Store) (c : Closure) : Prop :=
  ∃ m receiver f, c = { m with environment := m.environment.extend f } ∧ h.Bound s m receiver f

/-- A function that was made for a routine, in frames that stand for the scopes around the routine. A
function of a method was made by binding it. -/
def IsFunction (W : World) (s : Store) (c : Closure) : Prop :=
  ∃ (p : Place) (kind : RoutineKind) (r : Routine Unit), h.visits ⟨p, .routine kind r⟩ ∧
    c.routine = (r.resolve p.scoping kind).value ∧ c.isInitializer = decide (kind = .initializer) ∧
    (kind ≠ .function → h.Fetched s c) ∧ h.Fits W s ⟨p, .routine kind r⟩ c.environment

/-- A method of a class, which becomes a function when it is bound: a frame for the receiver is missing
between its routine and the scopes around the class. -/
def IsMethod (W : World) (s : Store) (c : Closure) : Prop :=
  ∃ (p : Place) (ms : List (Name × Routine Unit)) (kind : RoutineKind) (r : Routine Unit),
    h.visits ⟨p.inClassBody ms, .routine kind r⟩ ∧
    c.routine = (r.resolve p.scoping.inClassBody kind).value ∧
    c.isInitializer = decide (kind = .initializer) ∧
    (∃ n, (n, c.routine) ∈ (Routine.resolveMethods p.scoping.inClassBody ms).value) ∧
    Levels (h.Level W s ⟨p.inClassBody ms, .routine kind r⟩) c.environment.chain p.scoping.scopes
      p.openers

/-- A value whose functions and methods were made in frames that stand for scopes, and that is no
instance but one of those that were made. -/
def Genuine (W : World) (s : Store) : Value → Prop
  | .function _ c => h.IsFunction W s c
  | .class _ c => ∀ n m, c.methods.find? n = some m → h.IsMethod W s m
  | .object i c => i < s.fields.next ∧ ∀ n m, c.methods.find? n = some m → h.IsMethod W s m
  | _ => True

/-- A store that holds genuine values only, in frames that bind no names but those that what they were
made for declares. Native functions were shown genuine values only, and names are accessed at their
addresses. -/
structure Good (host : Host) (W : World) (s : Store) : Prop where
  access : host.access = .byAddress
  size : W.length = s.frames.next
  global : W[globalFrame]? = some none
  values : ∀ f n v, s.frames.find? f n = some v → h.Genuine W s v
  fields : ∀ f n v, s.fields.find? f n = some v → h.Genuine W s v
  declared : ∀ f n o, s.Binds f n → W[f]? = some (some o) → n ∈ o.declared
  shown : ∀ v ∈ s.shown, h.Genuine W s v

/-! ## Growing stores -/

variable {h} {W W' : World} {s s' : Store} {v w : Visit}

/-- What a frame was made for stays the same. -/
theorem owner_mono (hW : W <+: W') {f : FrameId} {o : Option Opener} (ho : W[f]? = some o) :
    W'[f]? = some o := by
  obtain ⟨_, rfl⟩ := hW
  rw [List.getElem?_append_left (List.getElem?_eq_some_iff.1 ho).1]
  exact ho

/-- What is recorded of a frame is recorded of a frame of the store. -/
theorem Good.owner_lt {host : Host} (hgood : h.Good host W s) {f : FrameId} {o : Option Opener}
    (ho : W[f]? = some o) : f < s.frames.next := by
  rw [← hgood.size]
  exact (List.getElem?_eq_some_iff.1 ho).1

/-- The global frame was made. -/
theorem Good.global_lt {host : Host} (hgood : h.Good host W s) : globalFrame < s.frames.next :=
  hgood.owner_lt hgood.global

/-- A declaration is as pending for what lies further in. -/
theorem Pending.reaches {f : FrameId} {k : Nat} {n : String} (hp : h.Pending v f k n)
    (hvw : v.Reaches w) : h.Pending w f k n := by
  obtain ⟨p, name, x, host, d, e, s, hname, hv, hk, hreaches, hrest⟩ := hp
  exact ⟨p, name, x, host, d, e, s, hname, hv, hk, hreaches.trans hvw, hrest⟩

/-- A bound method stays bound: what its frame holds does not change. -/
theorem Bound.mono (hs : s.Grows s') {m : Closure} {receiver : Value} {f : FrameId}
    (hb : h.Bound s m receiver f) : h.Bound s' m receiver f :=
  ⟨hb.happened, hb.inner, (hs.receiver f hb.inner ⟨receiver, hb.held⟩ thisName).trans hb.held⟩

/-- What lies in a method lies in it later and further in. -/
theorem InMethod.mono (hs : s.Grows s') (hvw : v.Reaches w) {f : FrameId} {fs : List FrameId}
    (hm : h.InMethod s v f fs) : h.InMethod s' w f fs := by
  obtain ⟨p, kind, r, m, receiver, hreaches, hlength, hr, hchain, hbound⟩ := hm
  exact ⟨p, kind, r, m, receiver, hreaches.trans hvw, hlength, hr, hchain, hbound.mono hs⟩

/-- A frame stands for a scope later and further in. -/
theorem Level.mono (hW : W <+: W') (hs : s.Grows s') (hvw : v.Reaches w) {f : FrameId} {σ : Scope}
    {o : Opener} {fs : List FrameId} (hl : h.Level W s v f σ o fs) : h.Level W' s' w f σ o fs where
  owner := owner_mono hW hl.owner
  opens := hl.opens
  below := hl.below
  ready n hn := hs.binds f n (hl.ready n hn)
  pending n hn := (hl.pending n hn).reaches hvw
  receiver c ms ho := (hl.receiver c ms ho).mono hs hvw

/-- A function stays one. -/
theorem IsFunction.mono (hW : W <+: W') (hs : s.Grows s') {c : Closure}
    (hc : h.IsFunction W s c) : h.IsFunction W' s' c := by
  obtain ⟨p, kind, r, hv, hr, hinit, hfetched, hfits⟩ := hc
  refine ⟨p, kind, r, hv, hr, hinit, fun hkind => ?_,
    hfits.mono fun _ _ _ _ => Level.mono hW hs .refl⟩
  obtain ⟨m, receiver, f, hc, hbound⟩ := hfetched hkind
  exact ⟨m, receiver, f, hc, hbound.mono hs⟩

/-- A method stays one. -/
theorem IsMethod.mono (hW : W <+: W') (hs : s.Grows s') {c : Closure}
    (hc : h.IsMethod W s c) : h.IsMethod W' s' c := by
  obtain ⟨p, ms, kind, r, hv, hr, hinit, hms, hlevels⟩ := hc
  exact ⟨p, ms, kind, r, hv, hr, hinit, hms, hlevels.mono fun _ _ _ _ => Level.mono hW hs .refl⟩

/-- A value stays genuine. -/
theorem Genuine.mono (hW : W <+: W') (hs : s.Grows s') {a : Value} (ha : h.Genuine W s a) :
    h.Genuine W' s' a := by
  cases a with
  | function i c => exact IsFunction.mono hW hs ha
  | «class» i c => exact fun n m hm => (ha n m hm).mono hW hs
  | object i c =>
    exact ⟨Nat.lt_of_lt_of_le ha.1 hs.instances, fun n m hm => (ha.2 n m hm).mono hW hs⟩
  | _ => trivial

/-- Nothing in the program gets in the way of a search for names: no name is used in the initializer of
a local variable of that name, and no routine uses a name that a scope around it declares only later. -/
structure Tame (h : History) : Prop where
  ready : ∀ v, h.visits v → ∀ σ ∈ v.place.scoping.scopes, ∀ n, v.Mentions n → (n, false) ∉ σ
  nested : ∀ (p : Place) kind r, h.visits ⟨p, .routine kind r⟩ → List.Forall₂ (fun (σ : Scope) o =>
    ∀ n, Visit.Uses ⟨p, .routine kind r⟩ n → n ∈ o.declared → σ.holds n = true)
      p.scoping.scopes p.openers

/-- What a part of a run leaves behind: more frames and names, and everything still in order. In a tame
program it binds no names in the frames that were there but the given ones. -/
structure Later (h : History) (host : Host) (W : World) (s : Store) (W' : World) (s' : Store)
    (fresh : FrameId → String → Prop) : Prop where
  worlds : W <+: W'
  grows : s.Grows s'
  good : h.Good host W' s'
  kept : h.Tame → ∀ f n, f < s.frames.next → s'.Binds f n → s.Binds f n ∨ fresh f n

/-- No name in any frame. -/
def noNames : FrameId → String → Prop := fun _ _ => False

namespace Later

variable {host : Host} {W₁ W₂ : World} {s₁ s₂ : Store} {fresh fresh' : FrameId → String → Prop}

/-- Nothing happened, and so nothing was bound. -/
theorem refl (hgood : h.Good host W s) : h.Later host W s W s fresh :=
  ⟨List.prefix_rfl, .refl s, hgood, fun _ _ _ _ hb => .inl hb⟩

/-- One part of a run after another one. The second binds among the frames of before what it binds at all.
-/
theorem trans (h₁ : h.Later host W s W₁ s₁ fresh) (h₂ : h.Later host W₁ s₁ W₂ s₂ fresh) :
    h.Later host W s W₂ s₂ fresh := by
  refine ⟨h₁.worlds.trans h₂.worlds, h₁.grows.trans h₂.grows, h₂.good, fun ht f n hf hb => ?_⟩
  rcases h₂.kept ht f n (Nat.lt_of_lt_of_le hf h₁.grows.next) hb with hb | hb
  · exact h₁.kept ht f n hf hb
  · exact .inr hb

/-- More names may be said to be bound. -/
theorem weaken (hl : h.Later host W s W' s' fresh) (hfresh : ∀ f n, fresh f n → fresh' f n) :
    h.Later host W s W' s' fresh' :=
  ⟨hl.worlds, hl.grows, hl.good, fun ht f n hf hb => (hl.kept ht f n hf hb).imp_right (hfresh f n)⟩

/-- A step that leaves the frames alone. -/
theorem of_frames (hgood : h.Good host W s) (hframes : s'.frames = s.frames)
    (hinstances : s.fields.next ≤ s'.fields.next)
    (hfields : ∀ f n v, s'.fields.find? f n = some v → h.Genuine W s v)
    (hshown : ∀ v ∈ s'.shown, h.Genuine W s v) : h.Later host W s W s' fresh := by
  have hgrows := Store.Grows.of_frames hframes hinstances
  -- Nothing is bound anew, so whatever was said of the frames is true of them still.
  have hbinds : ∀ f n, s'.Binds f n → s.Binds f n := fun f n hb => by
    unfold Store.Binds at hb
    rw [hframes] at hb
    exact hb
  refine ⟨List.prefix_rfl, hgrows, ?_, fun _ f n _ hb => .inl (hbinds f n hb)⟩
  constructor
  · exact hgood.access
  · rw [hframes]
    exact hgood.size
  · exact hgood.global
  · intro f n v hv
    rw [hframes] at hv
    exact (hgood.values f n v hv).mono List.prefix_rfl hgrows
  · exact fun f n v hv => (hfields f n v hv).mono List.prefix_rfl hgrows
  · exact fun f n o hb => hgood.declared f n o (hbinds f n hb)
  · exact fun v hv => (hshown v hv).mono List.prefix_rfl hgrows

/-- A name is bound to a genuine value, in a frame that holds no receiver. -/
theorem withName (hgood : h.Good host W s) {f : FrameId} {n : String} {v : Value}
    (hf : f < s.frames.next) (hn : f ≠ globalFrame → ¬s.Binds f thisName)
    (hv : h.Genuine W (s.withName f n v) v)
    (hdeclared : ∀ o, W[f]? = some (some o) → n ∈ o.declared)
    (hfresh : h.Tame → s.Binds f n ∨ fresh f n) :
    h.Later host W s W (s.withName f n v) fresh := by
  have hgrows : s.Grows (s.withName f n v) := .withName hf hn v
  refine ⟨List.prefix_rfl, hgrows, ?_, fun ht f' n' hf' hb => ?_⟩
  · constructor
    · exact hgood.access
    · show W.length = (s.frames.put f n v).next
      rw [Frames.next_put]
      exact hgood.size
    · exact hgood.global
    -- What a frame holds is the new value, or it was there before.
    · intro f' n' v' hv'
      rcases s.frames.find?_put_cases hv' with ⟨-, -, rfl⟩ | hv'
      · exact hv
      · exact (hgood.values f' n' v' hv').mono List.prefix_rfl hgrows
    · exact fun f' n' v' hv' => (hgood.fields f' n' v' hv').mono List.prefix_rfl hgrows
    · intro f' n' o hb ho
      rcases (Store.binds_withName hf).1 hb with ⟨rfl, rfl⟩ | hb
      · exact hdeclared o ho
      · exact hgood.declared f' n' o hb ho
    · exact fun v hv => (hgood.shown v hv).mono List.prefix_rfl hgrows
  · rcases (Store.binds_withName hf).1 hb with ⟨rfl, rfl⟩ | hb
    · exact hfresh ht
    · exact .inl hb

/-- A frame is added. -/
theorem withFrame (hgood : h.Good host W s) {table : Bindings Value} (o : Opener)
    (hvalues : ∀ n v, table.find? n = some v → h.Genuine W s v)
    (hdeclared : ∀ n v, table.find? n = some v → n ∈ o.declared) :
    h.Later host W s (W ++ [some o]) (s.withFrame table) fresh := by
  have hW : W <+: W ++ [some o] := List.prefix_append W _
  have hgrows := Store.Grows.withFrame s table
  refine ⟨hW, hgrows, ?_, fun ht f n hf hb => ?_⟩
  · constructor
    · exact hgood.access
    · show (W ++ [some o]).length = (s.frames.add table).next
      rw [Frames.next_add, List.length_append, hgood.size]
      rfl
    · exact owner_mono hW hgood.global
    · intro f n v hv
      change (s.frames.add table).find? f n = some v at hv
      rw [Frames.find?_add] at hv
      split at hv
      · exact (hvalues n v hv).mono hW hgrows
      · exact (hgood.values f n v hv).mono hW hgrows
    · exact fun f n v hv => (hgood.fields f n v hv).mono hW hgrows
    · intro f n o' hb ho
      -- The new frame holds what its opener declares, and the others are as before.
      by_cases hf : f = s.frames.next
      · subst hf
        obtain ⟨v, hv⟩ := Store.binds_newFrame.1 hb
        rw [← hgood.size, List.getElem?_append_right (Nat.le_refl _), Nat.sub_self] at ho
        obtain rfl : o = o' := by simpa using ho
        exact hdeclared n v hv
      · have hb' := (Store.binds_oldFrame hf).1 hb
        rw [List.getElem?_append_left (by rw [hgood.size]; exact hb'.lt)] at ho
        exact hgood.declared f n o' hb' ho
    · exact fun v hv => (hgood.shown v hv).mono hW hgrows
  · exact .inl ((Store.binds_oldFrame (Nat.ne_of_lt hf)).1 hb)

end Later

end History

end Treewalk
