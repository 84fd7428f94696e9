import Treewalk.Proofs.Session.History

/-!
# Frames mirror scopes

Whatever node runs in a session, the frames of its environment are those that were made for the scopes
around it, one for each, with the global frame at the end. So a name that resolving found in a scope is
bound in the frame at its distance (`Session.frames_mirror_scopes`), unless it is used in the
initializer of a local variable of this name whose declaration has not come to its end.
-/

namespace Treewalk

namespace Visit

variable {v w : Visit}

/-- Resolving one node comes to another inside a routine. -/
def ReachesInRoutine (v w : Visit) : Prop :=
  ∃ p kind r, v.Reaches ⟨p, .routine kind r⟩ ∧ Reaches ⟨p, .routine kind r⟩ w

/-- A part of an expression, outside of the routines in it. -/
def IsOperand (v : Visit) : Prop := (∃ x, v.node = .expression x) ∨ ∃ xs, v.node = .arguments xs

/-- From an operand resolving comes to a routine or to an operand in the same scopes. -/
theorem IsOperand.part (hv : v.IsOperand) (hw : w ∈ v.parts) :
    (∃ kind r, w.node = .routine kind r) ∨ (w.IsOperand ∧ w.place.openers = v.place.openers) := by
  obtain ⟨p, node⟩ := v
  rcases hv with ⟨x, rfl⟩ | ⟨xs, rfl⟩
  · cases x <;> simp only [parts, List.mem_cons, List.not_mem_nil, or_false] at hw
    all_goals obtain rfl | rfl := hw <;> simp [IsOperand, Place.inside]
  · cases xs <;> simp only [parts, List.mem_cons, List.not_mem_nil, or_false] at hw
    obtain rfl | rfl := hw <;> simp [IsOperand]

/-- An operand has no scope of its own, so where there is one more a routine was reached before. -/
theorem IsOperand.inRoutine (hv : v.IsOperand) (hw : v.Reaches w)
    (hne : w.place.openers ≠ v.place.openers) : v.ReachesInRoutine w := by
  induction hw using Relation.ReflTransGen.head_induction_on with
  | refl => exact absurd rfl hne
  | @head v u hu huw ih =>
    rcases hv.part hu with ⟨kind, r, hr⟩ | ⟨hoperand, hsame⟩
    · obtain ⟨p, node⟩ := u
      cases hr
      exact ⟨p, kind, r, .single hu, huw⟩
    · obtain ⟨p, kind, r, hur, hrw⟩ := ih hoperand (hsame ▸ hne)
      exact ⟨p, kind, r, .head hu hur, hrw⟩

/-- Inside an expression there is no scope that is not in a routine. -/
theorem Reaches.inRoutine {p : Place} {x : Expr Unit}
    (h : Reaches ⟨p, .expression x⟩ w) (hopeners : w.place.openers ≠ p.openers) :
    ReachesInRoutine ⟨p, .expression x⟩ w :=
  IsOperand.inRoutine (.inl ⟨x, rfl⟩) h hopeners

end Visit

namespace History

/-! ## Frames of names -/

section

variable (h : History)

/-- A frame was made for a scope, by what opened the scope and inside the frames further out. It binds
every name of the scope that has its value, and no name but those that are declared there. -/
structure Made (s : Store) (f : FrameId) (σ : Scope) (o : Opener) (fs : List FrameId) : Prop where
  opens : h.Opens f fs o
  ready : ∀ n, (n, true) ∈ σ → s.Binds f n
  declared : ∀ n, s.Binds f n → n ∈ o.declared

/-- The frames of an environment were made for the scopes around a visit, one for each. -/
def Mirrors (s : Store) (e : Environment) (v : Visit) : Prop :=
  Levels (h.Made s) e.chain v.place.scoping.scopes v.place.openers

/-- The frame at a distance was made for the scope in which a name is found at a visit. -/
structure Found (v : Visit) (e : Environment) (n : String) (k : Nat) (f : FrameId) : Prop where
  ancestor : e.ancestor? k = some f
  made : ∃ σ o, v.place.scoping.scopes[k]? = some σ ∧ v.place.openers[k]? = some o ∧
    σ.holds n = true ∧ h.Opens f (e.chain.drop (k + 1)) o
  nearest : ∀ i < k, ∀ σ, v.place.scoping.scopes[i]? = some σ → σ.holds n = false

/-- A visit lies in the initializer of a local variable that is declared in the scope at a distance, and
the declaration was begun on the frame of this scope but has not come to its end there. -/
def Unfinished (Lies : Visit → Visit → Prop) (v : Visit) (n : String) (k : Nat) (f : FrameId)
    (s : Store) : Prop :=
  ∃ p name x t, name.text = n ∧ h.visits ⟨p, .statement (.var name (some x))⟩ ∧
    t = (Stmt.resolve p.scoping (.var name (some x))).value ∧ p.openers ≠ [] ∧
    p.openers = v.place.openers.drop k ∧ Lies ⟨(p.put n false).inside, .expression x⟩ v ∧
    (∃ host d e s₀, h.happens host (.node d e (.statement t) s₀) ∧ e.own = f) ∧
    ∀ host d e s₀ s₁, h.happens host (.node d e (.statement t) s₀) → e.own = f →
      execute host d e t s₀ = .ok .normal s₁ → ¬s₁.Grows s

/-- A node that runs in an environment and on a store is aligned with a visit. The frames of the
environment mirror the scopes around the visit, and a name that is found in a scope has its value in the
frame that was made for the scope: a variable and the receiver are read there, and an assignment writes
over a value. The one exception is a name that is assigned in the initializer of a local variable of the
name, or read in a routine inside the initializer, on a frame where the declaration has not come to its
end. -/
structure Aligned (host : Host) (d : Nat) (e : Environment) (node : Node Address) (s : Store)
    (v : Visit) : Prop where
  visited : h.visits v
  resolved : v.resolved = node
  mirrors : h.Mirrors s e v
  read : ∀ n k, node = .expression (.variable n (.scope k)) →
    ∃ f, h.Found v e n.text k f ∧
      ((∃ a, s.frames.find? f n.text = some a ∧ host.access.read e n (.scope k) s = .ok a s) ∨
        h.Unfinished Visit.ReachesInRoutine v n.text k f s)
  this : ∀ line k, node = .expression (.this line (.scope k)) →
    ∃ f a, h.Found v e thisName k f ∧ s.frames.find? f thisName = some a ∧
      host.access.read e ⟨thisName, line⟩ (.scope k) s = .ok a s
  written : ∀ n k x a s₁, node = .expression (.assign n (.scope k) x) →
    evaluate host (d - 1) e x s = .ok a s₁ →
    ∃ f, h.Found v e n.text k f ∧
      host.access.write e n (.scope k) a s₁ = .ok () (s₁.withName f n.text a) ∧
      (s₁.Binds f n.text ∨ h.Unfinished Visit.Reaches v n.text k f s₁)

end

variable {h : History} {host : Host} {W : World} {s s₁ : Store} {v : Visit} {e : Environment}
  {n : String} {k : Nat} {f : FrameId}

/-- Where a node runs, the frames mirror the scopes. -/
theorem At.mirrors (hat : h.At W s v e) (hgood : h.Good host W s) : h.Mirrors s e v :=
  hat.fits.mono fun f _ o _ hl =>
    ⟨hl.opens, hl.ready, fun n hb => hgood.declared f n o hb hl.owner⟩

/-- A declaration that has come to its end has bound its name. -/
theorem Stands.binds {d : Nat} {t : Stmt Address} (hs : h.Stands host W (.node d e (.statement t) s))
    (ht : execute host d e t s = .ok .normal s₁) (hn : n ∈ t.declared) : s₁.Binds e.own n := by
  obtain ⟨W', hl, -, hbinds⟩ := ((keeps h host d).execute hs).ok ht
  exact hbinds n hn

/-- A name that has no value on its frame is that of a declaration that was begun there and has not come
to its end. -/
theorem Pending.unfinished (hall : h.AllStand)
    (hp : h.Pending v f (v.place.openers.drop k).length n) (hk : k < v.place.openers.length)
    (hb : ¬s.Binds f n) : h.Unfinished Visit.Reaches v n k f s := by
  obtain ⟨p, name, x, host, d, e, s₀, rfl, hv, hlength, hreaches, hhappens, hown⟩ := hp
  -- The declaration has as many scopes around it as lie behind the one of the name, so they are these.
  have hopeners : p.openers = v.place.openers.drop k := by
    have hsuffix : p.openers <:+ v.place.openers := hreaches.openers
    rw [List.suffix_iff_eq_drop.1 hsuffix, hlength, List.length_drop]
    congr 1
    omega
  refine ⟨p, name, x, _, rfl, hv, rfl, ?_, hopeners, hreaches, ⟨host, d, e, s₀, hhappens, hown⟩, ?_⟩
  · rw [hopeners]
    exact fun hnil => absurd (List.drop_eq_nil_iff.1 hnil) (Nat.not_le.2 hk)
  -- If it had come to its end, the name would be bound, and still be so.
  · intro host d e s₀ s₁ hhappens hown ht hgrows
    obtain ⟨W, hs⟩ := hall host _ hhappens
    have hbinds : s₁.Binds e.own name.text := hs.binds ht (List.mem_singleton_self _)
    exact hb (hown ▸ hgrows.binds _ _ hbinds)

/-- A name that resolving finds in a scope is bound in the frame of this scope, or its declaration has
not come to its end there. -/
theorem At.found (hall : h.AllStand) (hat : h.At W s v e)
    (ha : v.place.scoping.address n = .scope k) :
    ∃ f, h.Found v e n k f ∧ (s.Binds f n ∨
      h.Unfinished Visit.Reaches v n k f s ∧
        ∃ σ, v.place.scoping.scopes[k]? = some σ ∧ (n, false) ∈ σ) := by
  obtain ⟨f, σ, o, hf, hσ, ho, hl, hholds, hinner⟩ := hat.ancestor ha
  refine ⟨f, ⟨hf, ⟨σ, o, hσ, ho, hholds, hl.opens⟩, hinner⟩, ?_⟩
  -- The frame binds the name, or it has no value yet and its declaration is going on.
  by_cases hb : s.Binds f n
  · exact .inl hb
  obtain ⟨ready, hmem⟩ := Scope.holds_iff.1 hholds
  cases ready with
  | true => exact absurd (hl.ready n hmem) hb
  | false =>
    have hk : k < v.place.openers.length := (List.getElem?_eq_some_iff.1 ho).1
    -- The frames further out are as many as the scopes further out.
    have hlength : (e.chain.drop (k + 1)).length = (v.place.openers.drop k).length := by
      rw [List.length_drop, List.length_drop, hat.fits.length_frames]
      omega
    refine .inr ⟨Pending.unfinished hall ?_ hk hb, σ, hσ, hmem⟩
    rw [← hlength]
    exact hl.pending n hmem

/-- A variable that has no value on its frame is read inside a routine, for its own initializer may not
read it. -/
theorem Unfinished.inRoutine {p : Place} {n : Name} {m : Unit} {σ : Scope}
    (hsound : Visit.Sound ⟨p, .expression (.variable n m)⟩)
    (hu : h.Unfinished Visit.Reaches ⟨p, .expression (.variable n m)⟩ n.text k f s)
    (hσ : p.scoping.scopes[k]? = some σ) (hmem : (n.text, false) ∈ σ) :
    h.Unfinished Visit.ReachesInRoutine ⟨p, .expression (.variable n m)⟩ n.text k f s := by
  have hown : p.scoping.ownInitializers n = [] :=
    (List.append_eq_nil_iff.1 hsound.ownFindings).2
  -- An initializer is refused if it reads its own variable in the scope that is open, so the scope of the
  -- variable is another one.
  have hk : k ≠ 0 := by
    rintro rfl
    unfold Scoping.ownInitializers at hown
    cases hscopes : p.scoping.scopes with
    | nil =>
      rw [hscopes] at hσ
      cases hσ
    | cons σ' σs =>
      rw [hscopes] at hσ hown
      obtain rfl := Option.some.inj hσ
      have hunready : σ'.unready n.text = true := List.contains_iff_mem.2 hmem
      simp only [hunready, if_true] at hown
      cases hown
  -- The scopes have grown since the declaration. They can only be the same if there are none.
  obtain ⟨q, name, x, t, hname, hv, ht, hne, hopeners, hreaches, hbegun, hended⟩ := hu
  refine ⟨q, name, x, t, hname, hv, ht, hne, hopeners, ?_, hbegun, hended⟩
  refine hreaches.inRoutine fun hsame => hne ?_
  have hsame' : p.openers = p.openers.drop k := Eq.trans hsame hopeners
  have hlength := congrArg List.length hsame'
  rw [List.length_drop] at hlength
  have hnil : p.openers.length = 0 := by omega
  rw [show q.openers = p.openers from hsame.symm]
  exact List.length_eq_zero_iff.1 hnil

/-- A name that is bound in the frame at a distance is read there. -/
theorem read_found {m : Name} (hf : e.ancestor? k = some f) (hb : s.Binds f m.text) :
    ∃ a, s.frames.find? f m.text = some a ∧ Eval.read e m (.scope k) s = .ok a s := by
  obtain ⟨a, ha⟩ := hb
  refine ⟨a, ha, ?_⟩
  rw [Eval.read_scope, hf, Option.bind_some, ha]

/-- A node that stands is aligned with a visit. -/
theorem Stands.aligned (hall : h.AllStand) {d : Nat} {node : Node Address}
    (hs : h.Stands host W (.node d e node s)) : ∃ v, h.Aligned host d e node s v := by
  obtain ⟨v, hv, hat⟩ := hs.proper
  have hgood : h.Good host W s := hs.good
  have hsound := h.sound hat.visited
  -- An expression that stands is that of the visit, resolved.
  have hexpression : ∀ x, node = .expression x →
      ∃ u, v.node = .expression u ∧ (u.resolve v.place.scoping).value = x := by
    rintro x rfl
    obtain ⟨p, unit⟩ := v
    cases unit with
    | expression u => exact ⟨u, rfl, Node.expression.inj hv⟩
    | _ => cases hv
  refine ⟨v, hat.visited, hv, hat.mirrors hgood, ?_, ?_, ?_⟩
  · -- A variable is bound in the frame that is found, or read before its declaration has come to its end.
    intro n k hnode
    obtain ⟨u, hu, hresolved⟩ := hexpression _ hnode
    obtain ⟨mark, rfl, haddress⟩ := Expr.resolve_eq_variable hresolved
    obtain ⟨p, unit⟩ := v
    cases hu
    obtain ⟨f, hfound, hb | ⟨hunfinished, σ, hσ, hmem⟩⟩ := hat.found hall haddress.symm
    · rw [hgood.access]
      exact ⟨f, hfound, .inl (read_found hfound.ancestor hb)⟩
    · exact ⟨f, hfound, .inr (hunfinished.inRoutine hsound hσ hmem)⟩
  · -- A receiver is never without a value: it is not declared but put into its frame when that is made.
    intro line k hnode
    obtain ⟨u, hu, hresolved⟩ := hexpression _ hnode
    obtain ⟨mark, rfl, haddress⟩ := Expr.resolve_eq_this hresolved
    obtain ⟨p, unit⟩ := v
    cases hu
    obtain ⟨f, hfound, hb | ⟨-, σ, hσ, hmem⟩⟩ := hat.found hall (haddress hsound.inClass).symm
    · rw [hgood.access]
      obtain ⟨a, ha, hread⟩ := read_found (m := ⟨thisName, line⟩) hfound.ancestor hb
      exact ⟨f, a, hfound, ha, hread⟩
    · exact absurd hmem (hsound.place.receiver (List.mem_of_getElem? hσ))
  · -- An assignment finds its frame after the value is there.
    intro n k x a s₁ hnode hx
    subst hnode
    cases d with
    | zero => cases hx
    | succ d =>
      obtain ⟨u, hu, hresolved⟩ := hexpression _ rfl
      obtain ⟨m, mark, y, rfl, rfl, haddress, -⟩ := Expr.resolve_eq_assign hresolved
      have hvalue := (keeps h host d).evaluate (hs.of_expression .assigned (.refl hgood))
      obtain ⟨W₁, hl, -⟩ := hvalue.ok hx
      obtain ⟨f, hfound, hb⟩ := (hat.later hgood hl).found hall haddress.symm
      refine ⟨f, hfound, ?_, hb.imp_right fun hu => hu.1⟩
      rw [hgood.access]
      show Eval.write e n (.scope k) a s₁ = _
      rw [Eval.write_scope, hfound.ancestor]

end History

namespace Session

/-- Whatever node runs in a session is aligned with a visit that resolving makes in one of its
programs. -/
theorem frames_mirror_scopes (time : Nat → Float) (limits : Limits) (ops : List Operation) (host : Host)
    (d : Nat) (e : Environment) (node : Node Address) (s : Store)
    (hhappens : (history (starting time limits) ops).happens host (.node d e node s)) :
    ∃ v, (history (starting time limits) ops).Aligned host d e node s v := by
  obtain ⟨W, hs⟩ := stands hhappens
  exact hs.aligned (allStand time limits ops)

/-- In a function that a function gives, the parameter of the outer one is read in the frame that was made
for the outer call, which is over. -/
theorem frames_mirror_scopes_readInClosure : ∃ s v,
    (history (starting 0 .standard)
      [.execute "fn f(a)\x7bfn g()\x7breturn a;\x7dreturn g;\x7dprint f(true)();"]).happens
        (starting 0 .standard).host
        (.node 446 ⟨2, [1, globalFrame]⟩ (.expression (.variable ⟨"a", 1⟩ (.scope 1))) s) ∧
      (history (starting 0 .standard)
        [.execute "fn f(a)\x7bfn g()\x7breturn a;\x7dreturn g;\x7dprint f(true)();"]).Aligned
          (starting 0 .standard).host 446 ⟨2, [1, globalFrame]⟩
          (.expression (.variable ⟨"a", 1⟩ (.scope 1))) s v := by
  have hruns := (runs_execute accepts_readInClosure).2 ⟨rfl, rfl⟩
  have hprint : ∀ x, Stmt.print (.call (.call (.variable ⟨"f", 1⟩ Address.global) 1
      [.literal (.boolean true)]) 1 []) ≠ .expression x := by
    intro x hx
    cases hx
  obtain ⟨s, hhappens⟩ : ∃ s, (history (starting 0 .standard)
      [.execute "fn f(a)\x7bfn g()\x7breturn a;\x7dreturn g;\x7dprint f(true)();"]).happens
        (starting 0 .standard).host
        (.node 446 ⟨2, [1, globalFrame]⟩ (.expression (.variable ⟨"a", 1⟩ (.scope 1))) s) :=
    -- The way from the outermost statement into the body of `g`, where `a` is read.
    ⟨_, _, _, hruns, rfl, .head (.laterOutermost rfl) <| .head (.outermostStatement hprint) <|
      .head .print <| .head (.called rfl rfl rfl) <| .head .routine <| .head .statement <|
      .single .returned⟩
  obtain ⟨v, hv⟩ := frames_mirror_scopes 0 .standard _ _ _ _ _ _ hhappens
  exact ⟨s, v, hhappens, hv⟩

end Session

end Treewalk
