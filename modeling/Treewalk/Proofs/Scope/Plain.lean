import Treewalk.Proofs.Scope.Place

/-!
# Plain programs

In a plain program a search for a name comes to the declaration that resolving finds. Two things may get
in its way: a routine that uses a name which a scope around it declares only later, and a local variable
whose initializer uses its own name. `Visit.Plain` says of the first visit of a program that neither
occurs, in terms of the text alone.

Then the scopes around a visit hold every name that is used there with its value (`Plain.ready`), and
the scopes around a routine hold every name that the routine uses and that they ever declare
(`Plain.nested`). Whether a given program is plain can be computed (`plain_of_everywhere`).
-/

namespace Treewalk

namespace Visit

/-- No local scope declares a name after a use of it in a routine that lies in the scope, and no local
variable is used in its own initializer. -/
structure Plain (root : Visit) : Prop where
  later : ∀ p s ss, root.Reaches ⟨p, .body (s :: ss)⟩ → p.openers ≠ [] →
    ∀ q kind r n, Reaches ⟨p, .statement s⟩ ⟨q, .routine kind r⟩ →
      Mentions ⟨q, .routine kind r⟩ n → n ∉ ss.flatMap Stmt.declared
  initializer : ∀ p n x, root.Reaches ⟨p, .statement (.var n (some x))⟩ → p.openers ≠ [] →
    ¬Mentions ⟨(p.put n.text false).inside, .expression x⟩ n.text

/-- A local scope declares a name after the statement that a visit lies in. -/
def DeclaredLater (root v : Visit) (n : String) : Prop :=
  ∃ p s ss, root.Reaches ⟨p, .body (s :: ss)⟩ ∧ p.openers ≠ [] ∧ Reaches ⟨p, .statement s⟩ v ∧
    n ∈ ss.flatMap Stmt.declared

/-- A visit lies in the initializer of a local variable. -/
def InInitializer (root v : Visit) (n : String) : Prop :=
  ∃ p x, ∃ name : Name, name.text = n ∧ root.Reaches ⟨p, .statement (.var name (some x))⟩ ∧
    p.openers ≠ [] ∧ Reaches ⟨(p.put name.text false).inside, .expression x⟩ v

/-- A scope holds all names that are declared in it, but for the given ones and those that are declared
later. -/
def Covers (root v : Visit) (own : List String) (σ : Scope) (o : Opener) : Prop :=
  ∀ n ∈ o.declared, σ.holds n = true ∨ n ∈ own ∨ root.DeclaredLater v n

/-- All scopes hold the names that are declared in them, but for those that are declared later and, in
the innermost scope, the given ones. -/
def Covered (root v : Visit) (own : List String) : List Scope → List Opener → Prop
  | [], [] => True
  | σ :: σs, o :: os => root.Covers v own σ o ∧ List.Forall₂ (root.Covers v []) σs os
  | _, _ => False

variable {root v w : Visit} {own own' : List String} {σ : Scope} {o : Opener} {σs : List Scope}
  {os : List Opener} {n : String}

/-- A name that is declared later for a node is so for what is in the node. -/
theorem DeclaredLater.reaches (h : root.DeclaredLater v n) (hvw : v.Reaches w) :
    root.DeclaredLater w n := by
  obtain ⟨p, s, ss, hroot, hp, hs, hn⟩ := h
  exact ⟨p, s, ss, hroot, hp, hs.trans hvw, hn⟩

/-- A use in an initializer stays one further in. -/
theorem InInitializer.reaches (h : root.InInitializer v n) (hvw : v.Reaches w) :
    root.InInitializer w n := by
  obtain ⟨p, x, name, hname, hroot, hp, hx⟩ := h
  exact ⟨p, x, name, hname, hroot, hp, hx.trans hvw⟩

/-- Covering is inherited by what is further in, and by more own names. -/
theorem Covers.mono (h : root.Covers v own σ o) (hvw : v.Reaches w) (hown : own ⊆ own') :
    root.Covers w own' σ o := fun n hn =>
  (h n hn).imp_right fun h => h.imp (fun h => hown h) fun h => h.reaches hvw

namespace Covered

/-- The same for all scopes around a node. -/
theorem mono (h : root.Covered v own σs os) (hvw : v.Reaches w) (hown : own ⊆ own') :
    root.Covered w own' σs os := by
  cases σs with
  | nil =>
    cases os with
    | nil => trivial
    | cons o os => exact h
  | cons σ σs =>
    cases os with
    | nil => exact h
    | cons o os =>
      exact ⟨h.1.mono hvw hown, h.2.imp fun _ _ hσ => hσ.mono hvw (List.Subset.refl _)⟩

/-- Only the innermost scope may lack the given names. -/
theorem forall₂ (h : root.Covered v [] σs os) : List.Forall₂ (root.Covers v []) σs os := by
  cases σs with
  | nil =>
    cases os with
    | nil => exact .nil
    | cons o os => exact h.elim
  | cons σ σs =>
    cases os with
    | nil => exact h.elim
    | cons o os => exact .cons h.1 h.2

/-- A new scope lacks names of its own only. -/
theorem push (h : root.Covered v [] σs os) (hσ : root.Covers v own σ o) :
    root.Covered v own (σ :: σs) (o :: os) := ⟨hσ, h.forall₂⟩

/-- There is an opener for every scope. -/
theorem openers_ne_nil (h : root.Covered v own σs os) (hσs : σs ≠ []) : os ≠ [] := by
  rintro rfl
  cases σs with
  | nil => exact hσs rfl
  | cons σ σs => exact h

/-- Once a name is declared the innermost scope no longer lacks it. -/
theorem put {p : Place} (h : root.Covered v own p.scoping.scopes p.openers) (ready : Bool)
    (hown : ∀ m ∈ own, m = n ∨ m ∈ own') :
    root.Covered v own' (p.put n ready).scoping.scopes (p.put n ready).openers := by
  obtain ⟨⟨scopes, routine, inClass, depth, maxDepth⟩, openers⟩ := p
  cases scopes with
  | nil =>
    cases openers with
    | nil => trivial
    | cons o os => exact h
  -- Only the innermost scope changes, and it gains the name.
  | cons σ σs =>
    cases openers with
    | nil => exact h
    | cons o os =>
      refine ⟨fun m hm => ?_, h.2⟩
      rcases h.1 m hm with hσ | hmem | hlater
      · exact .inl (Scope.holds_put.2 (.inr hσ))
      · exact (hown m hmem).imp (fun heq => Scope.holds_put.2 (.inl heq)) .inl
      · exact .inr (.inr hlater)

/-- The innermost scope lacks fewer names of its own if the others are declared later. -/
theorem leave {more : List String} (h : root.Covered v (own ++ more) σs os)
    (hmore : os ≠ [] → ∀ n ∈ more, root.DeclaredLater v n) : root.Covered v own σs os := by
  cases σs with
  | nil =>
    cases os with
    | nil => trivial
    | cons o os => exact h
  -- In a scope, names that are own no longer are declared later.
  | cons σ σs =>
    cases os with
    | nil => exact h
    | cons o os =>
      refine ⟨fun n hn => ?_, h.2⟩
      rcases h.1 n hn with hσ | hmem | hlater
      · exact .inl hσ
      · exact .inr ((List.mem_append.1 hmem).imp_right (hmore (List.cons_ne_nil o os) n))
      · exact .inr (.inr hlater)

end Covered

/-- What the scopes around a visit tell of the text around it. -/
structure Known (root v : Visit) : Prop where
  pending : ∀ σ ∈ v.place.scoping.scopes, ∀ n, (n, false) ∈ σ → root.InInitializer v n
  covered : root.Covered v v.node.declared v.place.scoping.scopes v.place.openers

namespace Known

/-- A part in the same scopes. -/
theorem inside (h : root.Known v) (hw : w ∈ v.parts)
    (hscopes : w.place.scoping.scopes = v.place.scoping.scopes)
    (hopeners : w.place.openers = v.place.openers)
    (hnames : v.node.declared ⊆ w.node.declared) : root.Known w := by
  have hreaches : v.Reaches w := .single hw
  constructor
  · rw [hscopes]
    exact fun σ hσ n hn => (h.pending σ hσ n hn).reaches hreaches
  · rw [hscopes, hopeners]
    exact h.covered.mono hreaches hnames

/-- The state of a name is set in the innermost scope. -/
theorem pending_put (h : root.Known v) (hvw : v.Reaches w) {m : String} {ready : Bool}
    (hm : v.place.scoping.scopes ≠ [] → ready = false → root.InInitializer w m) :
    ∀ σ ∈ (v.place.put m ready).scoping.scopes, ∀ n, (n, false) ∈ σ → root.InInitializer w n := by
  obtain ⟨⟨⟨scopes, routine, inClass, depth, maxDepth⟩, openers⟩, node⟩ := v
  intro σ hσ n hn
  cases scopes with
  | nil => cases hσ
  | cons σ' σs =>
    rcases List.mem_cons.1 hσ with rfl | hσ
    · rcases Scope.mem_put.1 hn with ⟨rfl, hready⟩ | ⟨-, hn⟩
      · exact hm (List.cons_ne_nil _ _) hready.symm
      · exact (h.pending σ' List.mem_cons_self n hn).reaches hvw
    · exact (h.pending σ (List.mem_cons_of_mem _ hσ) n hn).reaches hvw

/-- At a statement of a body the names that the statements after it declare are declared later. -/
theorem statement {p : Place} {s : Stmt Unit} {ss : List (Stmt Unit)}
    (h : root.Known ⟨p, .body (s :: ss)⟩) (hv : root.Reaches ⟨p, .body (s :: ss)⟩) :
    root.Known ⟨p, .statement s⟩ := by
  have hreaches : Reaches ⟨p, .body (s :: ss)⟩ ⟨p, .statement s⟩ := .single List.mem_cons_self
  refine ⟨fun σ hσ n hn => (h.pending σ hσ n hn).reaches hreaches, ?_⟩
  refine (h.covered.mono hreaches (List.Subset.refl _)).leave fun hopeners n hn => ?_
  exact ⟨p, s, ss, hv, hopeners, .refl, hn⟩

/-- After a statement of a body the names that it declares are in the scope. -/
theorem later {p : Place} {s : Stmt Unit} {ss : List (Stmt Unit)}
    (h : root.Known ⟨p, .body (s :: ss)⟩) : root.Known ⟨p.after s, .body ss⟩ := by
  have hmem : ⟨p.after s, .body ss⟩ ∈ parts ⟨p, .body (s :: ss)⟩ := .tail _ (.head _)
  have hreaches : Reaches ⟨p, .body (s :: ss)⟩ ⟨p.after s, .body ss⟩ := .single hmem
  -- A statement that declares nothing leaves the place and the own names.
  cases hname : s.declared with
  | nil =>
    have hafter : p.after s = p := by cases s <;> first | rfl | cases hname
    refine h.inside hmem (by rw [hafter]) (by rw [hafter]) fun n hn => ?_
    have hn : n ∈ s.declared ++ ss.flatMap Stmt.declared := hn
    rw [hname] at hn
    exact hn
  -- A name that is declared moves from the own names to the scope.
  | cons m ms =>
    have hafter : p.after s = p.put m true ∧ ms = [] := by
      cases s <;> cases hname <;> exact ⟨rfl, rfl⟩
    obtain ⟨hafter, rfl⟩ := hafter
    rw [hafter] at hreaches ⊢
    refine ⟨h.pending_put hreaches fun _ hfalse => (by cases hfalse), ?_⟩
    refine (h.covered.mono hreaches (List.Subset.refl _)).put true fun n hn => ?_
    have hn : n ∈ s.declared ++ ss.flatMap Stmt.declared := hn
    rw [hname] at hn
    exact List.mem_cons.1 hn

/-- What comes next is known as well. -/
theorem part (h : root.Known v) (hv : root.Reaches v) (hw : w ∈ v.parts) :
    root.Known w := by
  have hreaches : v.Reaches w := .single hw
  obtain ⟨p, node⟩ := v
  have hcovered := h.covered
  cases partOf_of_mem hw with
  | @within _ part _ hq hnode _ =>
    have hnames : node.declared ⊆ part.declared := by
      rw [show node.declared = [] from hnode]
      exact List.nil_subset _
    obtain rfl | rfl := hq <;> exact h.inside hw rfl rfl hnames
  | @initializer n x =>
    -- The name is not ready, as this is the initializer of the variable.
    refine ⟨h.pending_put hreaches fun hscopes _ => ?_, ?_⟩
    · exact ⟨p, x, n, rfl, hv, hcovered.openers_ne_nil hscopes, .refl⟩
    · exact (hcovered.mono hreaches (List.Subset.refl _)).put false fun m hm =>
        .inl (List.mem_singleton.1 hm)
  | function =>
    refine ⟨h.pending_put hreaches fun _ hfalse => (by cases hfalse), ?_⟩
    exact (hcovered.mono hreaches (List.Subset.refl _)).put true fun m hm =>
      .inl (List.mem_singleton.1 hm)
  | @methods n ms =>
    -- The scope of a class holds the receiver's name, with its value.
    have hput : ∀ σ ∈ (p.put n.text true).scoping.scopes, ∀ m, (m, false) ∈ σ → root.InInitializer _ m :=
      h.pending_put hreaches fun _ hfalse => by cases hfalse
    refine ⟨fun σ hσ m hm => ?_, ?_⟩
    · rcases List.mem_cons.1 hσ with rfl | hσ
      · cases (Prod.mk.inj (List.mem_singleton.1 hm)).2
      · exact hput σ hσ m hm
    · have hclass : root.Covered _ [] (p.put n.text true).scoping.scopes p.openers :=
        (hcovered.mono hreaches (List.Subset.refl _)).put true fun m hm => .inl (List.mem_singleton.1 hm)
      refine Covered.push hclass fun m hm => .inl ?_
      rw [List.mem_singleton.1 hm]
      rfl
  | block =>
    -- The new scope is empty, and the names of the block are the ones that it lacks.
    refine ⟨fun σ hσ n hn => ?_, ?_⟩
    · rcases List.mem_cons.1 hσ with rfl | hσ
      · cases hn
      · exact (h.pending σ hσ n hn).reaches hreaches
    · exact (hcovered.mono hreaches (List.nil_subset _)).push fun n hn => .inr (.inl hn)
  | @body kind r =>
    -- The parameters are ready from the beginning.
    have hscopes := p.scoping.scopes_inRoutine kind r.parameters
    constructor
    · show ∀ σ ∈ (p.scoping.inRoutine kind r.parameters).scopes, _
      rw [hscopes]
      intro σ hσ n hn
      rcases List.mem_cons.1 hσ with rfl | hσ
      · cases (mem_parameterScope.1 hn).2
      · exact (h.pending σ hσ n hn).reaches hreaches
    · show root.Covered _ _ (p.scoping.inRoutine kind r.parameters).scopes _
      rw [hscopes]
      refine (hcovered.mono hreaches (List.nil_subset _)).push fun n hn => ?_
      rcases List.mem_append.1 hn with hn | hn
      · exact .inl (Scope.holds_iff.2 ⟨true, mem_parameterScope.2 ⟨hn, rfl⟩⟩)
      · exact .inr (.inl hn)
  | statement => exact h.statement hv
  | later => exact h.later

end Known

/-- What the scopes around a visit tell, for every visit of a program. -/
theorem known {maxDepth : Nat} {program : List (Stmt Unit)}
    (hroot : root = ⟨.outermost maxDepth, .body program⟩) (hv : root.Reaches v) : root.Known v := by
  induction hv with
  | refl =>
    subst hroot
    refine ⟨fun σ hσ => ?_, trivial⟩
    cases hσ
  | tail hv hw ih => exact ih.part hv hw

namespace Plain

variable (h : root.Plain) (hknown : root.Known v)
include h hknown

/-- A name that is used has its value in every scope that holds it. -/
theorem ready (hn : v.Mentions n) : ∀ σ ∈ v.place.scoping.scopes, (n, false) ∉ σ := by
  intro σ hσ hmem
  obtain ⟨p, x, name, rfl, hroot, hp, hx⟩ := hknown.pending σ hσ n hmem
  exact h.initializer p name x hroot hp (hn.of_reaches hx)

/-- A name that a routine uses is held by every scope around the routine that ever declares it. -/
theorem nested {kind : RoutineKind} {r : Routine Unit} (hv : v.node = .routine kind r) :
    List.Forall₂ (fun (σ : Scope) o => ∀ n, v.Mentions n → n ∈ o.declared → σ.holds n = true)
      v.place.scoping.scopes v.place.openers := by
  obtain ⟨p, node⟩ := v
  obtain rfl : node = .routine kind r := hv
  refine hknown.covered.forall₂.imp fun σ o hσ n hn ho => ?_
  rcases hσ n ho with hholds | hmem | ⟨q, s, ss, hroot, hq, hs, hmem⟩
  · exact hholds
  · cases hmem
  · exact absurd hmem (h.later q s ss hroot hq p kind r n hs hn)

end Plain

/-! ## Finding out whether a program is plain -/

/-- Whether no name of a list is used in a node. -/
def avoids (names : List String) (rounds : Nat) (v : Visit) : Bool :=
  v.everywhere (fun w => match w.node with
    | .expression (.variable m _) | .expression (.assign m _ _) => decide (m.text ∉ names)
    | _ => true) rounds

/-- A node that the test finds to avoid some names does not use them. -/
theorem not_mentions_of_avoids {names : List String} {rounds : Nat} (h : v.avoids names rounds = true)
    (hn : n ∈ names) : ¬v.Mentions n := by
  rintro ⟨⟨p, node⟩, hw, huse⟩
  have htest := of_everywhere h _ hw
  cases node with
  | expression x =>
    cases x with
    | «variable» m mark | assign m mark x =>
      obtain rfl : m.text = n := huse
      exact absurd hn (of_decide_eq_true htest)
    | _ => cases huse
  | _ => cases huse

/-- Whether a node keeps to what is asked of a plain program, as far as it is about the names that the
node itself declares. -/
def isPlainHere (rounds : Nat) : Visit → Bool
  | ⟨p, .body (s :: ss)⟩ => p.openers.isEmpty ||
      everywhere (fun w => match w.node with
        | .routine _ _ => w.avoids (ss.flatMap Stmt.declared) rounds
        | _ => true) rounds ⟨p, .statement s⟩
  | ⟨p, .statement (.var n (some x))⟩ => p.openers.isEmpty ||
      avoids [n.text] rounds ⟨(p.put n.text false).inside, .expression x⟩
  | _ => true

/-- A program is plain if this can be found out node by node. -/
theorem plain_of_everywhere {rounds : Nat} (h : root.everywhere (isPlainHere rounds) rounds = true) :
    root.Plain := by
  constructor
  · intro p s ss hbody hp q kind r n hroutine hmentions hn
    rcases Bool.or_eq_true_iff.1 (of_everywhere h _ hbody) with hempty | htest
    · exact hp (List.isEmpty_iff.1 hempty)
    · exact not_mentions_of_avoids (of_everywhere htest _ hroutine) hn hmentions
  · intro p n x hvar hp
    rcases Bool.or_eq_true_iff.1 (of_everywhere h _ hvar) with hempty | htest
    · exact absurd (List.isEmpty_iff.1 hempty) hp
    · exact not_mentions_of_avoids htest List.mem_cons_self

end Visit

end Treewalk
