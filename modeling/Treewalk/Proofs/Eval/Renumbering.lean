import Treewalk.Proofs.Eval.Correspondence
import Treewalk.Proofs.Scope.Shift

/-!
# Runs with idle frames

A block that declares nothing makes a frame in which no name is ever bound. A run that makes such idle
frames does the same as one that does not, but its frames have other numbers. What is known of two such
runs is a list: the frame of the second run that stands for each frame of the first (`renumbering`). The
frames of the second run that are not in the list are idle, and hold no name.

Closures correspond if their routines are the same but for one scope more, which stands for an idle frame
(`Environment.Renumbers`). All laws of a correspondence hold (`lawful_renumbering`). Beside them an idle
frame may be made at any time, in the second run only (`Correspondence.Matches.idle`).
-/

namespace Treewalk

open Eval

variable {w w' : List FrameId} {g : Bearing} {out : Nat} {e e' : Environment} {f f' : FrameId}

/-- The number of a frame stays what it is. -/
theorem number_mono (hw : w <+: w') (h : w[f]? = some f') : w'[f]? = some f' := by
  obtain ⟨hlt, hf⟩ := List.getElem?_eq_some_iff.1 h
  rw [List.prefix_iff_getElem?.1 hw f hlt, hf]

/-! ## Environments -/

/-- The frames of the second environment stand for those of the first, with an idle frame in the place of
the new scope, as seen from a bearing that is so many scopes further in. The new scope is not one of
these. -/
structure Environment.Renumbers (w : List FrameId) (g : Bearing) (out : Nat) (e e' : Environment) :
    Prop where
  settled : g.Settled
  inner : ∀ j < out, g.shift j = j
  frames : ∀ j, Option.Rel (fun f f' => w[f]? = some f') e.chain[j]? e'.chain[g.shift (j + out) - out]?

namespace Environment.Renumbers

/-- Frames stay numbered as they are when there are more. -/
theorem mono (h : e.Renumbers w g out e') (hw : w <+: w') : e.Renumbers w' g out e' :=
  ⟨h.settled, h.inner, fun j => option_rel_imp (h.frames j) fun _ _ => number_mono hw⟩

/-- The environment of a node is that of its parts. -/
theorem part (h : e.Renumbers w g out e') (i : Nat) : e.Renumbers w (g.part i) out e' := by
  rwa [Bearing.part_of_settled h.settled]

/-- A block or a routine is one further in. -/
theorem enter (h : e.Renumbers w g 0 e') : e.Renumbers w g.enter 1 e' := by
  obtain ⟨hsettled, hg, -⟩ := Bearing.enter_of_settled h.settled
  refine ⟨hsettled, fun j hj => ?_, fun j => ?_⟩
  · rw [Nat.lt_one_iff.1 hj]
    exact Bearing.shift_zero hg
  · rw [Bearing.shift_enter h.settled, Nat.add_sub_cancel]
    exact h.frames j

/-- The methods of a class are one further in, before there is a frame for their receiver. -/
theorem inClass (h : e.Renumbers w g 0 e') : e.Renumbers w g.inClass 1 e' := by
  obtain ⟨-, -, hg⟩ := Bearing.enter_of_settled h.settled
  rw [hg]
  exact h.enter

/-- Two frames of which the second stands for the first may be added. -/
theorem extend (h : e.Renumbers w g 1 e') (hf : w[f]? = some f') :
    (e.extend f).Renumbers w g 0 (e'.extend f') := by
  refine ⟨h.settled, fun j hj => absurd hj (Nat.not_lt_zero j), fun j => ?_⟩
  cases j with
  | zero =>
    show Option.Rel _ (some f) (e'.extend f').chain[g.shift 0]?
    rw [h.inner 0 Nat.zero_lt_one]
    exact .some hf
  | succ j =>
    -- The frames further out are those of `e'`, one further out.
    obtain ⟨k, hk⟩ : ∃ k, g.shift (j + 1) = k + 1 :=
      Nat.exists_eq_succ_of_ne_zero (Nat.ne_of_gt (Nat.lt_of_lt_of_le (Nat.succ_pos j) (Bearing.le_shift _)))
    have hj := h.frames j
    rw [hk, Nat.add_sub_cancel] at hj
    show Option.Rel _ e.chain[j]? (e'.extend f').chain[g.shift (j + 1)]?
    rw [hk]
    exact hj

/-- An idle frame may be added to the second environment. -/
theorem idle (h : e.Renumbers w .apart 0 e') (f' : FrameId) :
    e.Renumbers w (.within 0) 0 (e'.extend f') := by
  refine ⟨Bearing.settled_within 0, fun j hj => absurd hj (Nat.not_lt_zero j), fun j => ?_⟩
  have hshift : (Bearing.within 0).shift (j + 0) - 0 = j + 1 := rfl
  rw [hshift]
  exact h.frames j

/-- At an address and at the shifted one the same frame is found, under its other number. -/
theorem ancestor (h : e.Renumbers w g 0 e') (d : Nat) :
    Option.Rel (fun f f' => w[f]? = some f') (e.ancestor? d) (e'.ancestor? (g.shift d)) := h.frames d

/-- The own frame of the second environment stands for that of the first, unless it is idle. -/
theorem own (h : e.Renumbers w g 0 e') (hg : g ≠ .within 0) : w[e.own]? = some e'.own := by
  have hframe := h.ancestor 0
  rw [Bearing.shift_zero hg] at hframe
  cases hframe with
  | some hf => exact hf

end Environment.Renumbers

/-! ## Closures and values -/

/-- Two closures are the same but for the numbers of their frames and for one scope more, which is not that
of the receiver of an initializer. -/
structure Closure.Renumbered (w : List FrameId) (out : Nat) (c c' : Closure) : Prop where
  face : c.SameFace c'
  code : ∃ g kind, c.environment.Renumbers w g out c'.environment ∧
    Node.Alters .shifted g (.routine kind c.routine) (.routine kind c'.routine) ∧
    (c.isInitializer = true → g ≠ .within 0)

/-- Closures stay renumbered when there are more frames. -/
theorem Closure.Renumbered.mono {c c' : Closure} (h : c.Renumbered w out c') (hw : w <+: w') :
    c.Renumbered w' out c' := by
  obtain ⟨hface, g, kind, hframes, hcode⟩ := h
  exact ⟨hface, g, kind, hframes.mono hw, hcode⟩

/-- Values are alike if they are the same but for the numbers of frames and for one scope more. -/
def renumbered (w : List FrameId) : Likeness where
  function := Closure.Renumbered w 0
  method := Closure.Renumbered w 1

/-- More frames make no difference to values that were there. -/
theorem renumbered_mono (hw : w <+: w') : (renumbered w).Weaker (renumbered w') :=
  ⟨fun _ _ h => h.mono hw, fun _ _ h => h.mono hw⟩

/-! ## Frames -/

/-- The frames of the second run stand for those of the first, and hold values that are alike under the
same names. The others are idle. -/
structure Frames.Renumbered (w : List FrameId) (fs fs' : Frames Value) : Prop where
  size : w.length = fs.next
  once : w.Nodup
  bound : ∀ f' ∈ w, f' < fs'.next
  global : w[globalFrame]? = some globalFrame
  names : ∀ f f', w[f]? = some f' → ∀ name,
    Option.Rel (Value.Alike (renumbered w)) (fs.find? f name) (fs'.find? f' name)
  idle : ∀ f' ∉ w, ∀ name, fs'.find? f' name = none

namespace Frames.Renumbered

variable {fs fs' : Frames Value}

/-- Two frames stand for the same one only if they are the same. -/
theorem injective (h : fs.Renumbered w fs') {i j : FrameId} {f' : FrameId} (hi : w[i]? = some f')
    (hj : w[j]? = some f') : i = j := by
  obtain ⟨hi, hif⟩ := List.getElem?_eq_some_iff.1 hi
  obtain ⟨hj, hjf⟩ := List.getElem?_eq_some_iff.1 hj
  exact (List.Nodup.getElem_inj_iff h.once).1 (hif.trans hjf.symm)

/-- A value may be put in a frame and, alike, in the frame of the other number. -/
theorem put (h : fs.Renumbered w fs') (hf : w[f]? = some f') {v v' : Value}
    (hv : v.Alike (renumbered w) v') (name : String) :
    (fs.put f name v).Renumbered w (fs'.put f' name v') := by
  have hmem : f' ∈ w := List.mem_of_getElem? hf
  have hlt : f < fs.next := h.size ▸ (List.getElem?_eq_some_iff.1 hf).1
  refine ⟨h.size.trans (Frames.next_put _ _ _ _).symm, h.once, fun i' hi' => ?_, h.global,
    fun i i' hi other => ?_, fun i' hi' other => ?_⟩
  · rw [Frames.next_put]
    exact h.bound i' hi'
  · by_cases hsame : i = f ∧ other = name
    · obtain ⟨rfl, rfl⟩ := hsame
      obtain rfl : i' = f' := Option.some.inj (hi.symm.trans hf)
      rw [fs.find?_put_self hlt, fs'.find?_put_self (h.bound _ hmem)]
      exact .some hv
    · -- Another frame of the first run has another number in the second one.
      have hsame' : ¬(i' = f' ∧ other = name) := fun heq =>
        hsame ⟨h.injective hi (heq.1 ▸ hf), heq.2⟩
      rw [fs.find?_put_of_ne v hsame, fs'.find?_put_of_ne v' hsame']
      exact h.names i i' hi other
  · have hother : ¬(i' = f' ∧ other = name) := fun heq => hi' (heq.1 ▸ hmem)
    rw [fs'.find?_put_of_ne v' hother]
    exact h.idle i' hi' other

/-- A frame is added to each run. -/
theorem add (h : fs.Renumbered w fs') {table table' : Bindings Value}
    (htable : table.Related Eq (Value.Alike (renumbered w)) table') :
    (fs.add table).Renumbered (w ++ [fs'.next]) (fs'.add table') := by
  have hw : w <+: w ++ [fs'.next] := List.prefix_append w _
  have hlater : ∀ v v', Value.Alike (renumbered w) v v' →
      Value.Alike (renumbered (w ++ [fs'.next])) v v' := fun v v' hv => hv.weaken (renumbered_mono hw)
  refine ⟨?_, ?_, fun i' hi' => ?_, number_mono hw h.global, fun i i' hi name => ?_, fun i' hi' name => ?_⟩
  · rw [List.length_append, h.size, Frames.next_add]
    rfl
  · exact List.nodup_append.2 ⟨h.once, List.nodup_singleton _, fun a ha b hb => by
      rw [List.mem_singleton.1 hb]
      exact Nat.ne_of_lt (h.bound a ha)⟩
  · rw [Frames.next_add]
    rcases List.mem_append.1 hi' with hi' | hi'
    · exact Nat.lt_succ_of_lt (h.bound i' hi')
    · rw [List.mem_singleton.1 hi']
      exact Nat.lt_succ_self _
  · rw [Frames.find?_add, Frames.find?_add]
    by_cases hold : i < fs.next
    · -- A frame that was there before.
      rw [List.getElem?_append_left (h.size ▸ hold)] at hi
      have hne' : i' ≠ fs'.next := Nat.ne_of_lt (h.bound i' (List.mem_of_getElem? hi))
      rw [if_neg (Nat.ne_of_lt hold), if_neg hne']
      exact option_rel_imp (h.names i i' hi name) hlater
    · have hlt := (List.getElem?_eq_some_iff.1 hi).1
      rw [List.length_append, h.size, List.length_singleton] at hlt
      obtain rfl : i = fs.next := Nat.le_antisymm (Nat.le_of_lt_succ hlt) (Nat.le_of_not_lt hold)
      rw [← h.size, List.getElem?_concat_length] at hi
      obtain rfl := Option.some.inj hi
      rw [if_pos rfl, if_pos rfl]
      exact option_rel_imp (htable name name rfl) hlater
  · rw [List.mem_append, List.mem_singleton, not_or] at hi'
    rw [Frames.find?_add, if_neg hi'.2]
    exact h.idle i' hi'.1 name

/-- An idle frame is added to the second run. -/
theorem addIdle (h : fs.Renumbered w fs') : fs.Renumbered w (fs'.add {}) := by
  refine ⟨h.size, h.once, fun i' hi' => ?_, h.global, fun i i' hi name => ?_, fun i' hi' name => ?_⟩
  · rw [Frames.next_add]
    exact Nat.lt_succ_of_lt (h.bound i' hi')
  · have hne : i' ≠ fs'.next := Nat.ne_of_lt (h.bound i' (List.mem_of_getElem? hi))
    rw [Frames.find?_add, if_neg hne]
    exact h.names i i' hi name
  · rw [Frames.find?_add]
    split
    · rfl
    · exact h.idle i' hi' name

end Frames.Renumbered

/-! ## The correspondence -/

/-- Two runs of which the second has idle frames. -/
def renumbering : Correspondence where
  World := List FrameId
  Grows := (· <+: ·)
  likeness := renumbered
  frames := Frames.Renumbered
  stops := Eq
  rule := .shifted
  binds g n n' := n = n' ∧ g ≠ .within 0
  fits w g e e' := e.Renumbers w g 0 e'
  fitsClass w g e e' := e.Renumbers w g 1 e'
  refl _ := List.prefix_rfl
  trans := List.IsPrefix.trans
  weaker := renumbered_mono
  keepsFaces _ := ⟨fun _ _ h => h.face, fun _ _ h => h.face⟩
  same _ := rfl
  overflow h := .inl h.symm

namespace Correspondence

variable {s s' : Store} {v v' : Value}

/-- Under a name the two frames hold values that are alike, or both none. -/
theorem Stores.find? (hs : renumbering.Stores w s s') (hf : w[f]? = some f') (name : String) :
    Option.Rel (Value.Alike (renumbered w)) (s.frames.find? f name) (s'.frames.find? f' name) :=
  hs.frames.names f f' hf name

/-- The same for stores, where a name is put. -/
theorem Stores.withName (hs : renumbering.Stores w s s') (hf : w[f]? = some f')
    (hv : v.Alike (renumbered w) v') (name : String) :
    renumbering.Stores w (s.withName f name v) (s'.withName f' name v') :=
  ⟨hs.frames.put hf hv name, hs.fields, hs.identity, hs.printed, hs.told.shown, hs.told.events⟩

/-- A new frame in both stores, which get numbers of their own. -/
theorem Stores.withFrame (hs : renumbering.Stores w s s') {table table' : Bindings Value}
    (htable : table.Related Eq (Value.Alike (renumbered w)) table') :
    renumbering.Stores (w ++ [s'.frames.next]) (s.withFrame table) (s'.withFrame table') := by
  have hlater := renumbered_mono (List.prefix_append w [s'.frames.next])
  have hfields := hs.fields.imp (fun _ _ _ _ hname => hname) fun _ _ hv => Value.Alike.weaken hv hlater
  have htold := hs.told.weaken hlater
  exact ⟨hs.frames.add htable, hfields, hs.identity, hs.printed, htold.shown, htold.events⟩

namespace Matches

/-- A name is read in the same frame, at the shifted address. -/
theorem read {n n' : Name} {a a' : Address} (hfits : e.Renumbers w g 0 e')
    (huse : NameRule.shifted.use g n a n' a') :
    renumbering.Matches w renumbering.Values (Eval.read e n a) (Eval.read e' n' a') := by
  obtain ⟨rfl, rfl⟩ := huse
  intro w₁ hw₁ s s' hs
  refine ⟨w₁, List.prefix_rfl, ?_⟩
  cases a with
  | global =>
    rw [read_global, Bearing.shiftAddress, read_global]
    have hfound := hs.find? hs.frames.global n'.text
    -- Both frames hold the name or neither does.
    generalize s.frames.find? globalFrame n'.text = found at hfound
    generalize s'.frames.find? globalFrame n'.text = found' at hfound
    cases hfound with
    | none => exact .error rfl hs
    | some hv => exact .ok hv hs
  | scope d =>
    rw [read_scope, Bearing.shiftAddress, read_scope]
    have hframe := hfits.ancestor d
    generalize e.ancestor? d = frame at hframe
    generalize e'.ancestor? (g.shift d) = frame' at hframe
    cases hframe with
    | none => exact .error rfl hs
    | @some f f' hf =>
      have hfound := hs.find? (number_mono hw₁ hf) n'.text
      rw [Option.bind_some, Option.bind_some]
      generalize s.frames.find? f n'.text = found at hfound
      generalize s'.frames.find? f' n'.text = found' at hfound
      cases hfound with
      | none => exact .error rfl hs
      | some hv => exact .ok hv hs

/-- A name is assigned in the same frame, at the shifted address. -/
theorem write {n n' : Name} {a a' : Address} (hfits : e.Renumbers w g 0 e')
    (huse : NameRule.shifted.use g n a n' a') (hv : v.Alike (renumbered w) v') :
    renumbering.Matches w (fun _ _ _ => True) (Eval.write e n a v) (Eval.write e' n' a' v') := by
  obtain ⟨rfl, rfl⟩ := huse
  intro w₁ hw₁ s s' hs
  have hv₁ := hv.weaken (renumbered_mono hw₁)
  refine ⟨w₁, List.prefix_rfl, ?_⟩
  cases a with
  -- The global frame has the same number in both, and both have the name or neither.
  | global =>
    rw [write_global, Bearing.shiftAddress, write_global]
    have hfound := hs.find? hs.frames.global n'.text
    generalize s.frames.find? globalFrame n'.text = found at hfound
    generalize s'.frames.find? globalFrame n'.text = found' at hfound
    cases hfound with
    | none => exact .error rfl hs
    | some _ => exact .ok trivial (hs.withName hs.frames.global hv₁ n'.text)
  -- The address was shifted for the frame in which no name is, so it leads to the same frame.
  | scope d =>
    rw [write_scope, Bearing.shiftAddress, write_scope]
    have hframe := hfits.ancestor d
    generalize e.ancestor? d = frame at hframe
    generalize e'.ancestor? (g.shift d) = frame' at hframe
    cases hframe with
    | none => exact .error rfl hs
    | some hf => exact .ok trivial (hs.withName (number_mono hw₁ hf) hv₁ n'.text)

/-- A name is declared in the same frame. -/
theorem define (hf : w[f]? = some f') (hv : v.Alike (renumbered w) v') (name : String) :
    renumbering.Matches w (fun _ _ _ => True) (Eval.define f name v) (Eval.define f' name v') := by
  intro w₁ hw₁ s s' hs
  exact ⟨w₁, List.prefix_rfl, .ok trivial
    (hs.withName (number_mono hw₁ hf) (hv.weaken (renumbered_mono hw₁)) name)⟩

/-- The new frame of the second run stands for that of the first. -/
theorem extend (hfits : e.Renumbers w g 1 e') {table table' : Bindings Value}
    (htable : table.Related Eq (Value.Alike (renumbered w)) table') :
    renumbering.Matches w (fun w₁ e₁ e₁' => e₁.Renumbers w₁ g 0 e₁') (Eval.extend e table)
      (Eval.extend e' table') := by
  intro (w₁ : List FrameId) (hw₁ : w <+: w₁) s s' hs
  have hnew : (w₁ ++ [s'.frames.next])[s.frames.next]? = some s'.frames.next := by
    rw [← hs.frames.size]
    exact List.getElem?_concat_length
  have hgrows : w₁ <+: w₁ ++ [s'.frames.next] := List.prefix_append _ _
  refine ⟨_, hgrows, .ok ((hfits.mono (hw₁.trans hgrows)).extend hnew) (hs.withFrame ?_)⟩
  exact htable.imp (fun _ _ hname => hname) fun _ _ hv => hv.weaken (renumbered_mono hw₁)

/-- The second run makes an idle frame first. -/
theorem idle {α β : Type} {R : List FrameId → α → β → Prop} {x : Eval α} {k : Environment → Eval β}
    (hfits : e.Renumbers w .apart 0 e')
    (hk : ∀ e₁', e.Renumbers w (.within 0) 0 e₁' → renumbering.Matches w R x (k e₁')) :
    renumbering.Matches w R x (Eval.extend e' {} >>= k) := by
  intro w₁ hw₁ s s' hs
  exact hk (e'.extend s'.frames.next) (hfits.idle _) w₁ hw₁ s (s'.withFrame {})
    ⟨hs.frames.addIdle, hs.fields, hs.identity, hs.printed, hs.told.shown, hs.told.events⟩

end Matches

end Correspondence

/-- Idle frames change nothing. -/
theorem lawful_renumbering : renumbering.Lawful where
  biUnique _ := ⟨fun _ _ _ h h' => h.1.trans h'.1.symm, fun _ _ _ h h' => h.1.symm.trans h'.1⟩
  declare h := ⟨congrArg Name.text h.1.symm, h.2⟩
  keep h := ⟨rfl, h⟩
  mono h hw := h.mono hw
  part h i := h.part i
  inClass h := h.inClass
  partOfClass h i := h.part i
  read hfits huse := .read hfits huse
  write hfits huse hv := .write hfits huse hv
  define hfits hname hv := by
    obtain ⟨rfl, hg⟩ := hname
    exact .define (hfits.own hg) hv _
  -- In a frame of its own, the code is not in the additional scope, so names are bound as they are.
  enter hfits htable := by
    obtain ⟨-, hg, -⟩ := Bearing.enter_of_settled hfits.settled
    exact .extend hfits.enter (htable.imp (fun _ _ hname => ⟨hname, hg⟩) fun _ _ hv => hv)
  function hfits hr hlength name := ⟨⟨rfl, rfl, hlength⟩, _, _, hfits, hr, nofun⟩
  method := by
    intro w g e e' kind r r' hfits hr hlength name isInitializer
    refine ⟨⟨rfl, rfl, hlength⟩, _, _, hfits, hr, fun _ => ?_⟩
    rintro rfl
    exact absurd (hfits.inner 0 Nat.zero_lt_one) Nat.one_ne_zero
  bound := by
    intro w c c' v v' hc hv
    obtain ⟨hface, g, kind, hframes, hcode⟩ := hc
    refine Correspondence.Matches.weaken (.extend hframes ?_) fun w₁ _ e₁ e₁' hfits => ?_
    · exact Bindings.Related.empty.put biUnique_eq rfl hv
    · exact ⟨⟨hface.name, hface.isInitializer, hface.arity⟩, g, kind, hfits, hcode⟩
  called := by
    intro w c c' hc
    obtain ⟨-, g, kind, hframes, hcode, hreceiver⟩ := hc
    refine ⟨g, kind, hframes, hcode, fun hinit => ⟨rfl, ?_⟩⟩
    show Address.scope 0 = .scope (g.shift 0)
    rw [Bearing.shift_zero (hreceiver hinit)]

end Treewalk
