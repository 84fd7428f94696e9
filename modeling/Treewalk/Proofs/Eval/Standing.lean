import Treewalk.Proofs.Eval.Alignment

/-!
# Where a run stands

A node runs *at* a visit (`History.At`) if resolving visits it there, the frames of its environment fit
the scopes around it and, in a tame program, those frames bind no name that is used in the node but
the scopes hold it too. This is what the steps of a run keep: going on to a part of the node, into a
block, into the body of a routine that is called, and past a declaration.
-/

namespace Treewalk

/-- The names that a statement declares, on the frame that it runs on. -/
def declaredOn {ρ : Type} (e : Environment) (node : Node ρ) : FrameId → String → Prop :=
  fun f n => f = e.own ∧ n ∈ node.declared

namespace Levels

variable {L L' : FrameId → Scope → Opener → List FrameId → Prop}

/-- The state of a name is set in the innermost scope. -/
theorem put {e : Environment} {p : Place} {n : String} {ready : Bool}
    (h : Levels L e.chain p.scoping.scopes p.openers)
    (hown : ∀ σ o, L e.own σ o e.enclosing → L' e.own (σ.put n ready) o e.enclosing)
    (houter : ∀ σ o, L e.own σ o e.enclosing →
      ∀ f σ o fs, f ∈ e.enclosing → L f σ o fs → L' f σ o fs) :
    Levels L' e.chain (p.put n ready).scoping.scopes (p.put n ready).openers := by
  obtain ⟨⟨scopes, routine, inClass, depth, maxDepth⟩, openers⟩ := p
  obtain ⟨own, enclosing⟩ := e
  cases h with
  | global => exact .global
  | inner hl hs => exact .inner (hown _ _ hl) (hs.mono_of_mem (houter _ _ hl))

end Levels

namespace History

/-- A node runs at a visit, in an environment and on a store. -/
structure At (h : History) (W : World) (s : Store) (v : Visit) (e : Environment) : Prop where
  visited : h.visits v
  fits : h.Fits W s v e
  exact : h.Tame → Levels (fun f σ _ _ => ∀ n, v.Uses n → s.Binds f n → σ.holds n = true) e.chain
    v.place.scoping.scopes v.place.openers

variable {h : History} {host : Host} {W W' : World} {s s' : Store} {v w : Visit} {e : Environment}
  {fs : List FrameId} {σs : List Scope} {os : List Opener}

/-- The frames around a visit are frames of the store. -/
theorem frames_lt (hgood : h.Good host W s) (hl : Levels (h.Level W s v) fs σs os) :
    ∀ g ∈ fs, g < s.frames.next := by
  induction hl with
  | global =>
    intro g hg
    rw [List.mem_singleton.1 hg]
    exact hgood.global_lt
  | inner hl _ ih =>
    intro g hg
    rcases List.mem_cons.1 hg with rfl | hg
    · exact hgood.owner_lt hl.owner
    · exact ih g hg

/-- A frame that was just made for a scope. -/
theorem Level.new (hgood : h.Good host W s) (hl : Levels (h.Level W s v) fs σs os)
    {table : Bindings Value} {σ : Scope} {o : Opener} (hopens : h.Opens s.frames.next fs o)
    (hready : ∀ n, (n, true) ∈ σ → ∃ a, table.find? n = some a) (hpending : ∀ n, (n, false) ∉ σ)
    (hreceiver : ∀ c ms, o = .receiver c ms → h.InMethod (s.withFrame table) w s.frames.next fs) :
    h.Level (W ++ [some o]) (s.withFrame table) w s.frames.next σ o fs := by
  refine ⟨?_, hopens, frames_lt hgood hl, fun n hn => ?_, fun n hn => absurd hn (hpending n),
    hreceiver⟩
  · rw [← hgood.size, List.getElem?_append_right (Nat.le_refl _), Nat.sub_self]
    rfl
  · exact Store.binds_newFrame.2 (hready n hn)

/-- A frame that stands for a scope with another name than that of the receiver holds no receiver. -/
theorem Level.not_receiver (hgood : h.Good host W s) {f : FrameId} {σ : Scope} {o : Opener}
    (hl : h.Level W s v f σ o fs) (hσ : σ.OpenedBy o) {n : String} (hn : n ∈ o.declared)
    (hname : n ≠ thisName) : ¬s.Binds f thisName := by
  intro hb
  obtain ⟨c, ms, rfl⟩ := hσ.ofClass (hgood.declared f thisName o hb hl.owner)
  exact hname (List.mem_singleton.1 hn)

namespace At

/-- A node still runs where it did after a part of a run that bound no names there. -/
theorem later (hat : h.At W s v e) (hgood : h.Good host W s)
    (hl : h.Later host W s W' s' noNames) : h.At W' s' v e := by
  refine ⟨hat.visited, hat.fits.mono fun _ _ _ _ => Level.mono hl.worlds hl.grows .refl,
    fun ht => ?_⟩
  refine (hat.exact ht).mono_of_mem fun f σ o gs hf hexact n hn hb => ?_
  exact hexact n hn ((hl.kept ht f n (frames_lt hgood hat.fits f hf) hb).resolve_right id)

/-- A part of a node runs where the node does, if the scopes around it are the same. -/
theorem part (hat : h.At W s v e) (hw : w ∈ v.parts)
    (hscopes : w.place.scoping.scopes = v.place.scoping.scopes)
    (hopeners : w.place.openers = v.place.openers) : h.At W s w e := by
  have hfits := hat.fits
  have hexact := hat.exact
  unfold Fits at hfits
  rw [← hscopes, ← hopeners] at hfits hexact
  refine ⟨h.parts hat.visited hw, ?_, fun ht => ?_⟩
  · exact hfits.mono fun _ _ _ _ => Level.mono List.prefix_rfl (.refl s) (.single hw)
  · exact (hexact ht).mono fun f σ o gs hl n hn => hl n (hn.of_part hw)

/-- A block runs in a frame of its own. -/
theorem inBlock {p : Place} {body : List (Stmt Unit)} {d : Nat} (hgood : h.Good host W s)
    (hat : h.At W s ⟨p, .statement (.block body)⟩ e)
    (hhappens : h.happens host (.node (d + 1) e (Visit.resolved ⟨p, .statement (.block body)⟩) s)) :
    h.At (W ++ [some (.block p.scoping body)]) (s.withFrame {}) ⟨p.inBlock body, .body body⟩
      (e.extend s.frames.next) := by
  have hpart : ⟨p.inBlock body, .body body⟩ ∈ Visit.parts ⟨p, .statement (.block body)⟩ :=
    List.mem_singleton_self _
  have hempty : ∀ n, ¬∃ a, ({} : Bindings Value).find? n = some a := by
    rintro n ⟨a, ha⟩
    cases ha
  -- The new frame is the one level more; it stands for a scope without names.
  refine ⟨h.parts hat.visited hpart, .inner ?_ ?_, fun ht => .inner ?_ ?_⟩
  · refine Level.new hgood hat.fits ⟨host, d, e, s, hhappens, rfl, rfl⟩ ?_ ?_ ?_
    · exact fun n hn => by cases hn
    · exact fun n hn => by cases hn
    · exact fun c ms ho => by cases ho
  -- The other frames stand for what they stood for.
  · exact hat.fits.mono fun _ _ _ _ => Level.mono (List.prefix_append W _)
      (Store.Grows.withFrame s {}) (.single hpart)
  · exact fun n _ hb => absurd (Store.binds_newFrame.1 hb) (hempty n)
  -- They are older than the new one, so it binds nothing in them.
  · refine (hat.exact ht).mono_of_mem fun f σ o gs hf hexact n hn hb => ?_
    have hlt := frames_lt hgood hat.fits f hf
    exact hexact n (hn.of_part hpart) ((Store.binds_oldFrame (Nat.ne_of_lt hlt)).1 hb)

/-- The initializer of a variable runs where the name is declared and has no value yet. -/
theorem initializer {p : Place} {n : Name} {x : Expr Unit} {d : Nat}
    (hat : h.At W s ⟨p, .statement (.var n (some x))⟩ e)
    (hhappens : h.happens host
      (.node (d + 1) e (Visit.resolved ⟨p, .statement (.var n (some x))⟩) s)) :
    h.At W s ⟨(p.put n.text false).inside, .expression x⟩ e := by
  have hpart : ⟨(p.put n.text false).inside, .expression x⟩ ∈
      Visit.parts ⟨p, .statement (.var n (some x))⟩ := List.mem_singleton_self _
  have hlength : e.enclosing.length = p.openers.length :=
    Nat.succ.inj hat.fits.length_frames
  refine ⟨h.parts hat.visited hpart, hat.fits.put ?_ ?_, fun ht => (hat.exact ht).put ?_ ?_⟩
  -- The name of the variable is in the innermost scope now, not ready. Its declaration is the pending one.
  · intro σ o hl
    refine ⟨hl.owner, hl.opens, hl.below, fun m hm => ?_, fun m hm => ?_,
      fun c ms ho => (hl.receiver c ms ho).mono (.refl s) (.single hpart)⟩
    · rcases Scope.mem_put.1 hm with ⟨-, hm⟩ | ⟨-, hm⟩
      · cases hm
      · exact hl.ready m hm
    · rcases Scope.mem_put.1 hm with ⟨rfl, -⟩ | ⟨-, hm⟩
      · exact ⟨p, n, x, host, d + 1, e, s, rfl, hat.visited, hlength.symm, .refl, hhappens, rfl⟩
      · exact (hl.pending m hm).reaches (.single hpart)
  · exact fun _ _ _ f σ o gs _ => Level.mono List.prefix_rfl (.refl s) (.single hpart)
  · exact fun σ o hl m hm hb => Scope.holds_put.2 (.inr (hl m (hm.of_part hpart) hb))
  · exact fun _ _ _ f σ o gs _ hl m hm => hl m (hm.of_part hpart)

/-- The frames around what comes after a declaration, once the name is bound. -/
theorem fits_put {n : String} (hfits : h.Fits W s v e) (hw : v.Reaches w) (hgrows : s.Grows s')
    (hbinds : s'.Binds e.own n) :
    Levels (h.Level W s' w) e.chain (v.place.put n true).scoping.scopes
      (v.place.put n true).openers := by
  -- Only the innermost level gains a name, and its frame binds the name by now.
  refine Levels.put hfits ?_ ?_
  · intro σ o hl
    have hl' := hl.mono List.prefix_rfl hgrows hw
    refine ⟨hl'.owner, hl'.opens, hl'.below, fun m hm => ?_, fun m hm => ?_, hl'.receiver⟩
    · rcases Scope.mem_put.1 hm with ⟨rfl, -⟩ | ⟨-, hm⟩
      · exact hbinds
      · exact hl'.ready m hm
    · rcases Scope.mem_put.1 hm with ⟨-, hm⟩ | ⟨-, hm⟩
      · cases hm
      · exact hl'.pending m hm
  · exact fun _ _ _ f σ o gs _ => Level.mono List.prefix_rfl hgrows hw

/-- The statements after a statement run where it did, once it has come to its end. -/
theorem after {p : Place} {t : Stmt Unit} {ss : List (Stmt Unit)}
    (hat : h.At W s ⟨p, .body (t :: ss)⟩ e) (hgood : h.Good host W s)
    (hl : h.Later host W s W' s' (declaredOn e (.statement t)))
    (hbinds : ∀ n ∈ t.declared, s'.Binds e.own n) : h.At W' s' ⟨p.after t, .body ss⟩ e := by
  have hpart : ⟨p.after t, .body ss⟩ ∈ Visit.parts ⟨p, .body (t :: ss)⟩ :=
    List.mem_cons_of_mem _ (List.mem_singleton_self _)
  cases hname : t.declared with
  | nil =>
    have hafter : p.after t = p := by cases t <;> first | rfl | cases hname
    have hl' : h.Later host W s W' s' noNames := hl.weaken fun f n hn => by
      have hmem : n ∈ t.declared := hn.2
      rw [hname] at hmem
      cases hmem
    rw [hafter] at hpart ⊢
    exact (hat.later hgood hl').part hpart rfl rfl
  | cons n ns =>
    have hafter : p.after t = p.put n true ∧ ns = [] := by
      cases t <;> cases hname <;> exact ⟨rfl, rfl⟩
    obtain ⟨hafter, rfl⟩ := hafter
    rw [hafter] at hpart ⊢
    have hn : s'.Binds e.own n := hbinds n (hname ▸ List.mem_singleton_self n)
    -- Only the name that was declared is new, and only in the own frame.
    have hkept : h.Tame → ∀ f m, f < s.frames.next → s'.Binds f m →
        s.Binds f m ∨ (f = e.own ∧ m = n) := fun ht f m hf hb => by
      refine (hl.kept ht f m hf hb).imp_right fun hm => ⟨hm.1, ?_⟩
      have hmem : m ∈ t.declared := hm.2
      rw [hname] at hmem
      exact List.mem_singleton.1 hmem
    have hlt := frames_lt hgood hat.fits
    refine ⟨h.parts hat.visited hpart, ?_, fun ht => ?_⟩
    · exact fits_put (hat.fits.mono fun _ _ _ _ => Level.mono hl.worlds (.refl s) .refl)
        (.single hpart) hl.grows hn
    · have hlevels := (hat.exact ht).and hat.fits
      refine hlevels.put ?_ ?_
      · intro σ o hlevel m hm hb
        rcases hkept ht e.own m (hlt _ List.mem_cons_self) hb with hb | ⟨-, rfl⟩
        · exact Scope.holds_put.2 (.inr (hlevel.1 m (hm.of_part hpart) hb))
        · exact Scope.holds_put.2 (.inl rfl)
      · intro _ _ hown f σ o gs hf hlevel m hm hb
        rcases hkept ht f m (hlt f (List.mem_cons_of_mem _ hf)) hb with hb | ⟨rfl, -⟩
        · exact hlevel.1 m (hm.of_part hpart) hb
        · exact absurd (hown.2.below _ hf) (Nat.lt_irrefl _)

end At

/-! ## Functions and methods -/

/-- The body of a function runs in a frame of its own inside the frames that the function was made
in. -/
theorem IsFunction.body {c : Closure} {vs : List Value} {d i : Nat} (hgood : h.Good host W s)
    (hc : h.IsFunction W s c) (hvs : ∀ a ∈ vs, h.Genuine W s a)
    (hlength : c.routine.parameters.length = vs.length)
    (hhappens : h.happens host (.call (d + 1) (.function i c) vs s)) :
    ∃ W' p kind r, h.Later host W s W' (s.withFrame (parameterTable c.routine.parameters vs)) noNames ∧
      c.isInitializer = decide (kind = .initializer) ∧
      Visit.resolved ⟨Place.inRoutine p kind r, .body r.body⟩ = .body c.routine.body ∧
      h.At W' (s.withFrame (parameterTable c.routine.parameters vs))
        ⟨p.inRoutine kind r, .body r.body⟩ (c.environment.extend s.frames.next) := by
  obtain ⟨p, kind, r, hv, hr, hinit, -, hfits⟩ := hc
  let o := Opener.routine p.scoping kind r
  have hparameters : c.routine.parameters = r.parameters := by rw [hr, Routine.parameters_resolve]
  have hbody : c.routine.body =
      (Stmt.resolveList (p.scoping.inRoutine kind r.parameters) r.body).value := by
    rw [hr, Routine.body_resolve]
  have hscopes := p.scoping.scopes_inRoutine kind r.parameters
  have hnames := find?_parameterTable hlength
  have hpart : ⟨p.inRoutine kind r, .body r.body⟩ ∈ Visit.parts ⟨p, .routine kind r⟩ :=
    List.mem_singleton_self _
  have hlt := frames_lt hgood hfits
  refine ⟨W ++ [some o], p, kind, r, ?_, hinit, congrArg Node.body hbody.symm, h.parts hv hpart, ?_,
    ?_⟩
  · refine .withFrame hgood o (fun n a ha => hvs a (mem_of_find?_parameterTable ha)) ?_
    intro n a ha
    exact List.mem_append_left _ (hparameters ▸ (hnames n).1 ⟨a, ha⟩)
  · show Levels _ _ (p.scoping.inRoutine kind r.parameters).scopes _
    rw [hscopes]
    refine .inner (Level.new hgood hfits ⟨host, d, i, c, vs, s, hhappens, hr, rfl, rfl⟩ ?_ ?_ ?_)
      (hfits.mono fun _ _ _ _ => Level.mono (List.prefix_append W _) (.withFrame s _)
        (.single hpart))
    · intro n hn
      exact (hnames n).2 (hparameters ▸ (mem_parameterScope.1 hn).1)
    · exact fun n hn => by cases (mem_parameterScope.1 hn).2
    · intro c ms ho
      have hopener : Opener.routine p.scoping kind r = .receiver c ms := ho
      cases hopener
  · intro ht
    show Levels _ _ (p.scoping.inRoutine kind r.parameters).scopes _
    rw [hscopes]
    refine .inner ?_ ?_
    · intro n _ hb
      have hn := (hnames n).1 (Store.binds_newFrame.1 hb)
      exact Scope.holds_iff.2 ⟨true, mem_parameterScope.2 ⟨hparameters ▸ hn, rfl⟩⟩
    · -- The frames further out may bind names that were declared after the routine, but the routine
      -- does not use these.
      refine (hfits.and_forall₂ (ht.nested p kind r hv)).mono_of_mem ?_
      intro f σ o' gs hf hl n hn hb
      have hb' := (Store.binds_oldFrame (Nat.ne_of_lt (hlt f hf))).1 hb
      exact hl.2 n (hn.of_part hpart) (hgood.declared f n o' hb' hl.1.owner)

/-- A lambda makes a function. -/
theorem At.lambda {p : Place} {r : Routine Unit} (hat : h.At W s ⟨p, .expression (.lambda r)⟩ e) :
    h.IsFunction W s ⟨none, (r.resolve p.scoping.inside .function).value, e, false⟩ := by
  have hpart : ⟨p.inside, .routine .function r⟩ ∈ Visit.parts ⟨p, .expression (.lambda r)⟩ :=
    List.mem_singleton_self _
  exact ⟨p.inside, .function, r, h.parts hat.visited hpart, rfl, rfl, fun hkind => absurd rfl hkind,
    (hat.part hpart rfl rfl).fits⟩

/-- The declaration of a function makes a function, once its name is bound. -/
theorem At.function {p : Place} {n : Name} {r : Routine Unit}
    (hat : h.At W s ⟨p, .statement (.function n r)⟩ e) (hgrows : s.Grows s')
    (hbinds : s'.Binds e.own n.text) :
    h.IsFunction W s'
      ⟨some n.text, (r.resolve (p.scoping.define n).inside .function).value, e, false⟩ := by
  have hpart : ⟨(p.put n.text true).inside, .routine .function r⟩ ∈
      Visit.parts ⟨p, .statement (.function n r)⟩ := List.mem_singleton_self _
  exact ⟨(p.put n.text true).inside, .function, r, h.parts hat.visited hpart, rfl, rfl,
    fun hkind => absurd rfl hkind, At.fits_put hat.fits (.single hpart) hgrows hbinds⟩

/-- A method is an initializer by its name, for the resolver and for a class that is run. -/
theorem isInitializer_iff (name : Name) :
    decide (name.text = initializerName) = decide (methodKind name = .initializer) := by
  unfold methodKind
  by_cases hname : name.text = initializerName
  · simp [hname]
  · simp [hname]

/-- What the table of some methods holds under a name is the last of them that has it, or what the table
held before. -/
theorem mem_of_find?_foldl_method {ms : List (Name × Routine Address)} {table : Bindings Closure}
    {n : String} {m : Closure} (hm : (ms.foldl (fun table method => table.put method.1.text
      ⟨some method.1.text, method.2, e, decide (method.1.text = initializerName)⟩) table).find? n =
        some m) :
    (m.environment = e ∧ ∃ name, (name, m.routine) ∈ ms ∧
      m.isInitializer = decide (methodKind name = .initializer)) ∨ table.find? n = some m := by
  induction ms generalizing table with
  | nil => exact .inr hm
  | cons first ms ih =>
    -- The last method of a name is the one that is found.
    rcases ih hm with ⟨he, name, hname, hinit⟩ | hm
    · exact .inl ⟨he, name, List.mem_cons_of_mem _ hname, hinit⟩
    · by_cases hn : n = first.1.text
      · subst hn
        rw [Bindings.find?_put_self] at hm
        obtain rfl := Option.some.inj hm
        exact .inl ⟨rfl, first.1, List.mem_cons_self, isInitializer_iff first.1⟩
      · rw [Bindings.find?_put_of_ne table _ hn] at hm
        exact .inr hm

/-- A method in the table of a class comes from a method of its text. It is an initializer if it has the
name of one. -/
theorem mem_of_find?_methodTable {ms : List (Name × Routine Address)} {n : String} {m : Closure}
    (hm : (methodTable e ms).find? n = some m) : m.environment = e ∧ ∃ name, (name, m.routine) ∈ ms ∧
      m.isInitializer = decide (methodKind name = .initializer) := by
  rcases mem_of_find?_foldl_method hm with hm | hm
  · exact hm
  · cases hm

/-- A resolved method comes from a method that resolving visits. -/
theorem exists_method {p : Place} {ms : List (Name × Routine Unit)} {n : Name} {r' : Routine Address}
    (hr : (n, r') ∈ (Routine.resolveMethods p.scoping ms).value) :
    ∃ r, Visit.Reaches ⟨p, .methods ms⟩ ⟨p, .routine (methodKind n) r⟩ ∧
      r' = (r.resolve p.scoping (methodKind n)).value := by
  induction ms with
  | nil => cases hr
  | cons m ms ih =>
    obtain ⟨name, r⟩ := m
    rcases List.mem_cons.1 hr with heq | hr
    · obtain ⟨rfl, hr'⟩ := Prod.mk.inj heq
      exact ⟨r, .single List.mem_cons_self, hr'⟩
    · obtain ⟨r, hreaches, hr'⟩ := ih hr
      exact ⟨r, .head (List.mem_cons_of_mem _ (List.mem_singleton_self _)) hreaches, hr'⟩

/-- What resolving comes to from a visit is visited. -/
theorem visits_of_reaches (hv : h.visits v) (hvw : v.Reaches w) : h.visits w := by
  induction hvw with
  | refl => exact hv
  | tail _ hw ih => exact h.parts ih hw

/-- The declaration of a class makes methods, once its name is bound. -/
theorem At.class {p : Place} {n : Name} {ms : List (Name × Routine Unit)}
    (hat : h.At W s ⟨p, .statement (.class n ms)⟩ e) (hgrows : s.Grows s')
    (hbinds : s'.Binds e.own n.text) {name : String} {m : Closure}
    (hm : (methodTable e (Routine.resolveMethods
      (p.scoping.define n).inside.inClassBody ms).value).find? name = some m) :
    h.IsMethod W s' m := by
  have hpart : ⟨(p.put n.text true).inside.inClassBody ms, .methods ms⟩ ∈
      Visit.parts ⟨p, .statement (.class n ms)⟩ := List.mem_singleton_self _
  -- A method that is found is one of the class, and resolving has come to its routine.
  obtain ⟨rfl, name', hmem, hinit⟩ := mem_of_find?_methodTable hm
  obtain ⟨r, hreaches, hr⟩ :=
    exists_method (p := (p.put n.text true).inside.inClassBody ms) hmem
  have hvw := Relation.ReflTransGen.head hpart hreaches
  exact ⟨(p.put n.text true).inside, ms, methodKind name', r, visits_of_reaches hat.visited hvw, hr,
    hinit, ⟨name', hmem⟩, At.fits_put hat.fits hvw hgrows hbinds⟩

/-- Binding a method makes a function, in a frame of its own for the receiver. -/
theorem IsMethod.bind {m : Closure} {receiver : Value} (hgood : h.Good host W s)
    (hm : h.IsMethod W s m) (hreceiver : h.Genuine W s receiver)
    (hhappens : h.happens host (.bind m receiver s)) :
    ∃ W' i s', Eval.bindMethod m receiver s =
        .ok (.function i { m with environment := m.environment.extend s.frames.next }) s' ∧
      h.Later host W s W' s' noNames ∧ h.Bound s' m receiver s.frames.next ∧
      h.IsFunction W' s' { m with environment := m.environment.extend s.frames.next } := by
  obtain ⟨p, ms, kind, r, hv, hr, hinit, hms, hlevels⟩ := hm
  let o := Opener.receiver p.scoping.inClassBody ms
  let table := ({} : Bindings Value).put thisName receiver
  have hframe : h.Later host W s (W ++ [some o]) (s.withFrame table) noNames := by
    refine .withFrame hgood o (fun n a ha => (find?_receiver.1 ha).2 ▸ hreceiver) fun n a ha => ?_
    rw [(find?_receiver.1 ha).1]
    exact List.mem_singleton_self _
  have hidentity : h.Later host (W ++ [some o]) (s.withFrame table) (W ++ [some o])
      { s.withFrame table with nextIdentity := s.nextIdentity + 1 } noNames :=
    .of_frames hframe.good rfl (Nat.le_refl _) hframe.good.fields hframe.good.shown
  have hbound : h.Bound (s.withFrame table) m receiver s.frames.next := by
    refine ⟨⟨host, s, hhappens, rfl⟩, ?_, ?_⟩
    · -- The global frame was there before.
      exact (Nat.ne_of_lt hgood.global_lt).symm
    · show (s.frames.add table).find? s.frames.next thisName = some receiver
      rw [Frames.find?_add, if_pos rfl]
      exact Bindings.find?_put_self _ _ _
  have hmethod : h.InMethod (s.withFrame table) ⟨p.inClassBody ms, .routine kind r⟩ s.frames.next
      m.environment.chain := by
    refine ⟨p.inClassBody ms, kind, r, m, receiver, .refl, ?_, hr, rfl, hbound⟩
    rw [hlevels.length_frames]
    rfl
  refine ⟨W ++ [some o], s.nextIdentity, _, rfl, hframe.trans hidentity, hbound.mono hidentity.grows,
    p.inClassBody ms, kind, r, hv, hr, hinit,
    fun _ => ⟨m, receiver, s.frames.next, rfl, hbound.mono hidentity.grows⟩, ?_⟩
  refine .inner ?_ ?_
  · refine Level.mono (v := ⟨p.inClassBody ms, .routine kind r⟩) List.prefix_rfl hidentity.grows .refl
      (Level.new hgood hlevels ⟨host, m, receiver, s, hhappens, hms, rfl, rfl⟩ ?_ ?_
        fun _ _ _ => hmethod)
    · intro n hn
      rw [(Prod.mk.inj (List.mem_singleton.1 hn)).1]
      exact ⟨receiver, Bindings.find?_put_self _ _ _⟩
    · exact fun n hn => by cases (Prod.mk.inj (List.mem_singleton.1 hn)).2
  · exact hlevels.mono fun _ _ _ _ =>
      Level.mono hframe.worlds (hframe.grows.trans hidentity.grows) .refl

end History

end Treewalk
