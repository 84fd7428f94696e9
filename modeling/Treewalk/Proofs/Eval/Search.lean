import Treewalk.Proofs.Eval.Access
import Treewalk.Proofs.Eval.Preservation

/-!
# Searching for names

Another way to access a name is to search the frames for it, the nearest first, and to forget the address
that resolving has given it. In a tame program the frames around a node bind those names that it uses and
that the scopes hold, and no others of the names that it uses, so the search comes to the frame at the
address (`History.Stands.agrees`).
-/

namespace Treewalk

/-- The nearest frame of an environment that binds a name. -/
def Store.search (s : Store) (e : Environment) (name : String) : Option FrameId :=
  e.chain.find? fun frame => (s.frames.find? frame name).isSome

/-- Names are searched for in the frames of the environment. Their addresses count for nothing. -/
def Access.bySearch : Access where
  read e name _ := do
    let s ← get
    match (s.search e name.text).bind (s.frames.find? · name.text) with
    | some v => pure v
    | none => Eval.faultAt name.line (.undefinedVariable name.text)
  write e name _ v := do
    match (← get).search e name.text with
    | some frame => Eval.define frame name.text v
    | none => Eval.faultAt name.line (.undefinedVariable name.text)

namespace Access

variable (e : Environment) (n : Name) (a : Address) (v : Value) (s : Store)

/-- A search reads a name in the nearest frame that binds it; if there is none it is undefined. -/
theorem read_bySearch : bySearch.read e n a s =
    match (s.search e n.text).bind (s.frames.find? · n.text) with
    | some v => .ok v s
    | none => .error (.fault (some n.line) (.undefinedVariable n.text)) s := by
  change (match (s.search e n.text).bind (s.frames.find? · n.text) with
    | some v => (pure v : Eval Value)
    | none => Eval.faultAt n.line (.undefinedVariable n.text)) s = _
  cases (s.search e n.text).bind (s.frames.find? · n.text) <;> rfl

/-- A search assigns a name in the nearest frame that binds it. -/
theorem write_bySearch : bySearch.write e n a v s =
    match s.search e n.text with
    | some f => .ok () (s.withName f n.text v)
    | none => .error (.fault (some n.line) (.undefinedVariable n.text)) s := by
  change (match s.search e n.text with
    | some f => Eval.define f n.text v
    | none => Eval.faultAt n.line (.undefinedVariable n.text)) s = _
  cases s.search e n.text <;> rfl

end Access

namespace History

variable {h : History} {host : Host} {W : World} {s : Store} {v : Visit} {e : Environment}
  {n : String}

/-- A frame binds a name if and only if its scope holds it. -/
def Tells (s : Store) (n : String) (f : FrameId) (σ : Scope) (_ : Opener) (_ : List FrameId) : Prop :=
  s.Binds f n ↔ σ.holds n = true

/-- Where a frame tells of its scope, a name is found in it if the scope holds it. -/
theorem Tells.isSome_eq {f : FrameId} {σ : Scope} {o : Opener} {fs : List FrameId}
    (ht : Tells s n f σ o fs) : (s.frames.find? f n).isSome = σ.holds n := by
  rw [Bool.eq_iff_iff, Option.isSome_iff_exists]
  exact ht

section

variable {fs : List FrameId} {σs : List Scope} {os : List Opener} {k d : Nat}

/-- A name that no scope holds is bound in the global frame, if at all. -/
theorem find?_of_global (hlevels : Levels (Tells s n) fs σs os)
    (ha : Scoping.addressFrom k n σs = .global) :
    fs.find? (fun f => (s.frames.find? f n).isSome) =
      [globalFrame].find? fun f => (s.frames.find? f n).isSome := by
  induction hlevels generalizing k with
  | global => rfl
  | @inner f σ o fs σs os hl hs ih =>
    rw [Scoping.addressFrom_cons] at ha
    -- An address that is global passes all scopes, and so does the search their frames.
    cases hσ : σ.holds n with
    | true =>
      rw [hσ, if_pos rfl] at ha
      cases ha
    | false =>
      rw [hσ, if_neg Bool.false_ne_true] at ha
      rw [List.find?_cons, hl.isSome_eq, hσ]
      exact ih ha

/-- A name is bound in the frame of the scope in which it is found, and in no frame further in. -/
theorem find?_of_scope (hlevels : Levels (Tells s n) fs σs os)
    (ha : Scoping.addressFrom k n σs = .scope (k + d)) :
    fs.find? (fun f => (s.frames.find? f n).isSome) = fs[d]? := by
  induction hlevels generalizing k d with
  | global => cases ha
  | @inner f σ o fs σs os hl hs ih =>
    -- The search and the address go outwards together: each frame has the name if its scope holds it.
    rw [Scoping.addressFrom_cons] at ha
    rw [List.find?_cons, hl.isSome_eq]
    cases hσ : σ.holds n with
    | true =>
      rw [hσ, if_pos rfl] at ha
      obtain rfl : d = 0 := by
        have := Address.scope.inj ha
        omega
      rfl
    | false =>
      rw [hσ, if_neg Bool.false_ne_true] at ha
      obtain ⟨j, rfl⟩ : ∃ j, d = j + 1 := by
        have := Scoping.le_of_addressFrom ha
        exact ⟨d - 1, by omega⟩
      rw [show k + (j + 1) = k + 1 + j by omega] at ha
      exact ih ha

end

/-- In a tame program each frame around a node binds a name that the node uses if and only if its scope
holds it. -/
theorem At.tells (hat : h.At W s v e) (ht : h.Tame) (hn : v.Uses n) :
    Levels (Tells s n) e.chain v.place.scoping.scopes v.place.openers := by
  -- In a tame program the name has its value wherever it is used, and `this` has it always.
  have hready : ∀ σ ∈ v.place.scoping.scopes, (n, false) ∉ σ := by
    intro σ hσ
    rcases hn with rfl | hn
    · exact (h.sound hat.visited).place.receiver hσ
    · exact ht.ready v hat.visited σ hσ n hn
  have hscopes : List.Forall₂ (fun (σ : Scope) (_ : Opener) => (n, false) ∉ σ)
      v.place.scoping.scopes v.place.openers :=
    List.forall₂_iff_zip.2 ⟨(h.sound hat.visited).place.scopes.length_eq,
      fun hσ => hready _ (List.of_mem_zip hσ).1⟩
  refine (((hat.exact ht).and hat.fits).and_forall₂ hscopes).mono fun f σ o fs hl => ⟨?_, ?_⟩
  · exact hl.1.1 n hn
  · intro hholds
    obtain ⟨ready, hmem⟩ := Scope.holds_iff.1 hholds
    cases ready with
    | true => exact hl.1.2.ready n hmem
    | false => exact absurd hmem hl.2

/-- A search for a name that a node uses comes to the frame at its address, or to the global frame. -/
theorem At.search_eq (hat : h.At W s v e) (ht : h.Tame) (hn : v.Uses n) :
    (v.place.scoping.address n = .global → s.search e n =
        [globalFrame].find? fun f => (s.frames.find? f n).isSome) ∧
      ∀ d, v.place.scoping.address n = .scope d →
        ∃ f, e.ancestor? d = some f ∧ s.search e n = some f ∧ s.Binds f n := by
  have htells := hat.tells ht hn
  refine ⟨fun ha => find?_of_global htells ha, fun d ha => ?_⟩
  obtain ⟨f, σ, o, hf, hσ, -, -, hholds, -⟩ := hat.ancestor ha
  obtain ⟨f', o', hf', -, htells'⟩ := htells.get hσ
  obtain rfl : f = f' := Option.some.inj (hf.symm.trans hf')
  refine ⟨f, hf, ?_, htells'.2 hholds⟩
  have hsearch := find?_of_scope (k := 0) (d := d) htells (by rw [Nat.zero_add]; exact ha)
  exact hsearch.trans hf

/-- A name is read by search as it is at its address. -/
theorem At.read_eq (hat : h.At W s v e) (ht : h.Tame) {name : Name} (hn : v.Uses name.text) :
    Access.bySearch.read e name (v.place.scoping.address name.text) s =
      Eval.read e name (v.place.scoping.address name.text) s := by
  obtain ⟨hglobal, hscope⟩ := hat.search_eq ht hn
  rw [Access.read_bySearch]
  -- A global name is searched in the global frame only, and a local one is found in the frame of its
  -- address.
  cases ha : v.place.scoping.address name.text with
  | global =>
    rw [hglobal ha, Eval.read_global, List.find?_singleton]
    cases hv : s.frames.find? globalFrame name.text with
    | none => rfl
    | some a =>
      rw [Option.isSome_some, if_pos rfl, Option.bind_some, hv]
  | scope d =>
    obtain ⟨f, hf, hsearch, a, ha⟩ := hscope d ha
    rw [hsearch, Eval.read_scope, hf, Option.bind_some, ha]

/-- A name is written by search as it is at its address. -/
theorem At.write_eq (hat : h.At W s v e) (ht : h.Tame) {name : Name} (hn : v.Uses name.text)
    (a : Value) : Access.bySearch.write e name (v.place.scoping.address name.text) a s =
      Eval.write e name (v.place.scoping.address name.text) a s := by
  obtain ⟨hglobal, hscope⟩ := hat.search_eq ht hn
  rw [Access.write_bySearch]
  cases ha : v.place.scoping.address name.text with
  | global =>
    rw [hglobal ha, Eval.write_global, List.find?_singleton]
    cases hv : s.frames.find? globalFrame name.text <;> rfl
  | scope d =>
    obtain ⟨f, hf, hsearch, -⟩ := hscope d ha
    rw [hsearch, Eval.write_scope, hf]

/-- In a tame program names are accessed by search as they are at their addresses, wherever an activation
stands. -/
theorem Stands.agrees {a : Activation} (hs : h.Stands host W a) (ht : h.Tame) :
    a.Agrees host .bySearch := by
  -- Three activations look at the access. The node of each is that of a visit, in which the name is used.
  have hgood := hs.good
  unfold Activation.Agrees
  split
  · next d e n a s =>
    obtain ⟨p, u, hu, hat⟩ := hs.exists_expression
    obtain ⟨mark, rfl, rfl⟩ := Expr.resolve_eq_variable hu.symm
    rw [hgood.access]
    exact hat.read_eq ht (.inr ⟨_, .refl, rfl⟩)
  · next d e line a s =>
    obtain ⟨p, u, hu, hat⟩ := hs.exists_expression
    obtain ⟨mark, rfl, ha⟩ := Expr.resolve_eq_this hu.symm
    rw [hgood.access, ha (h.sound hat.visited).inClass]
    have hthis : Visit.Uses ⟨p, .expression (.this line mark)⟩ (Name.text ⟨thisName, line⟩) := .inl rfl
    exact hat.read_eq ht hthis
  · next d e n a x s =>
    -- The value is evaluated first; the frames still stand for the scopes then.
    intro v s₁ hx
    obtain ⟨W₁, hl₁, -⟩ := ((keeps h host d).evaluate (hs.of_expression .assigned (.refl hgood))).ok hx
    obtain ⟨p, u, hu, hat⟩ := hs.exists_expression
    obtain ⟨m, mark, y, rfl, rfl, rfl, rfl⟩ := Expr.resolve_eq_assign hu.symm
    rw [hgood.access]
    exact (hat.later hgood hl₁).write_eq ht (.inr ⟨_, .refl, rfl⟩) v
  · trivial

/-- In a tame program a standing activation runs by search as it runs by address. -/
theorem Stands.agreeing {a : Activation} (hs : h.Stands host W a) (ht : h.Tame) :
    a.Agreeing host .bySearch := by
  intro b hab
  obtain ⟨W', -, -, hb⟩ := hs.leadsTo hab
  exact hb.agrees ht

end History

end Treewalk
