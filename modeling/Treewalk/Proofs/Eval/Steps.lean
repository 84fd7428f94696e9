import Treewalk.Proofs.Diagnostic.Log
import Treewalk.Proofs.Eval.Standing

/-!
# Steps of a run

An activation *stands* in a world if it happens, its store is good and what it runs is where it belongs:
a node at a visit, a call with a genuine value and as many genuine arguments as it takes. Here is what
a standing activation leads to, given what the activations before it have left (`Leads`): a part of a
node, the rounds of a loop, a block or a body, a call, a bound method.

A run that stops has a reason that fits on one line (`Host.Explains`), unless a native function gives
it.
-/

namespace Treewalk

open Eval

/-! ## Reasons to stop -/

namespace Fault

/-- A name without line feeds is reported in one line. -/
theorem undefinedVariable_oneLine {name : String} (h : '\n' ∉ name.toList) :
    '\n' ∉ (undefinedVariable name).message.toList := by
  unfold message
  simp only [String.toList_append, List.mem_append, not_or]
  exact ⟨⟨by decide, h⟩, by decide⟩

/-- A property without line feeds is reported in one line. -/
theorem undefinedProperty_oneLine {name : String} (h : '\n' ∉ name.toList) :
    '\n' ∉ (undefinedProperty name).message.toList := by
  unfold message
  simp only [String.toList_append, List.mem_append, not_or]
  exact ⟨⟨by decide, h⟩, by decide⟩

/-- Counts of arguments are reported in one line. -/
theorem wrongCount_oneLine (expected given : Nat) :
    '\n' ∉ (wrongCount expected given).message.toList := by
  unfold message
  simp only [String.toList_append, List.mem_append, not_or]
  exact ⟨⟨⟨by decide, not_mem_toString_nat _⟩, by decide⟩, not_mem_toString_nat _⟩

/-- Wrong operands are reported in one line. -/
theorem operands_oneLine (f : OperandFault) : '\n' ∉ (operands f).message.toList := by
  cases f <;> decide

end Fault

/-- The reason for a stop fits on one line, or the work of a native function comes to it. -/
def Host.Explains (host : Host) : Stop → Prop
  | .fault line f => '\n' ∉ f.message.toList ∨
      ∃ (i : Nat) (native : Native) (s s' : Store) (message : String) (internal : Bool),
        host.natives[i]? = some native ∧ f = .native message internal ∧
        (native s.events).Reaches s (.fail line message internal) s'
  | _ => True

namespace History

/-- What an activation runs is where it belongs. -/
def Proper (h : History) (W : World) : Activation → Prop
  | .node _ e node s => ∃ v, v.resolved = node ∧ h.At W s v e
  | .loop _ _ e x b s => ∃ v, v.resolved = .statement (.while x b) ∧ h.At W s v e
  | .call _ f vs s => h.Genuine W s f ∧ (∀ a ∈ vs, h.Genuine W s a) ∧ f.arity? = some vs.length
  | .bind m receiver s =>
    h.IsMethod W s m ∧ h.Genuine W s receiver ∧ ∃ i c, receiver = .object i c
  | .program _ ss s => ∃ v, v.resolved = .body ss ∧ h.At W s v (.outermost globalFrame)

/-- An activation that happens, on a good store, and runs what belongs there. -/
structure Stands (h : History) (host : Host) (W : World) (a : Activation) : Prop where
  happens : h.happens host a
  good : h.Good host W a.store
  proper : h.Proper W a

/-- Every activation that happens stands. -/
def AllStand (h : History) : Prop := ∀ host a, h.happens host a → ∃ W, h.Stands host W a

/-- A part of a run leaves a good store behind, and a good result if it comes to its end, or else a
reason for its stop. -/
def Leads {α : Type} (h : History) (host : Host) (W : World) (s : Store)
    (fresh : FrameId → String → Prop) (good : World → Store → α → Prop) :
    EStateM.Result Stop Store α → Prop
  | .ok a s' => ∃ W', h.Later host W s W' s' fresh ∧ good W' s' a
  | .error stop s' => host.Explains stop ∧ ∃ W', h.Later host W s W' s' fresh

/-- The value that a statement returns is genuine, and the name that it declares is bound. -/
def Executed (h : History) {ρ : Type} (e : Environment) (node : Node ρ) (W : World) (s : Store)
    (outcome : Outcome) : Prop :=
  (∀ v, outcome = .returned v → h.Genuine W s v) ∧
    ∀ n ∈ node.declared, s.Binds e.own n

variable {h : History} {host : Host} {W W' W₁ W₂ : World} {s s' s₁ s₂ : Store} {v w : Visit}
  {e : Environment} {d : Nat} {fresh fresh' : FrameId → String → Prop}

/-! ## Parts of a run -/

section Leads

variable {α β : Type} {good : World → Store → α → Prop} {good' : World → Store → β → Prop}

/-- What succeeds leaves what `Leads` says of its result. -/
theorem Leads.ok {r : EStateM.Result Stop Store α} {a : α} (hl : h.Leads host W s fresh good r)
    (hr : r = .ok a s') : ∃ W', h.Later host W s W' s' fresh ∧ good W' s' a := by
  rw [hr] at hl
  exact hl

/-- A part of a run that begins on what another part leaves. -/
theorem Leads.after {r : EStateM.Result Stop Store α} (hl : h.Later host W s W₁ s₁ fresh)
    (hr : h.Leads host W₁ s₁ fresh good r) : h.Leads host W s fresh good r := by
  cases r with
  | ok a s' =>
    obtain ⟨W', hl', ha⟩ := hr
    exact ⟨W', hl.trans hl', ha⟩
  | error stop s' =>
    obtain ⟨hstop, W', hl'⟩ := hr
    exact ⟨hstop, W', hl.trans hl'⟩

/-- More names may be said to be bound. -/
theorem Leads.weaken {r : EStateM.Result Stop Store α} (hr : h.Leads host W s fresh good r)
    (hfresh : ∀ f n, fresh f n → fresh' f n) : h.Leads host W s fresh' good r := by
  cases r with
  | ok a s' =>
    obtain ⟨W', hl, ha⟩ := hr
    exact ⟨W', hl.weaken hfresh, ha⟩
  | error stop s' =>
    obtain ⟨hstop, W', hl⟩ := hr
    exact ⟨hstop, W', hl.weaken hfresh⟩

/-- A part that binds no names binds at most the given ones. -/
theorem Leads.of_none {r : EStateM.Result Stop Store α} (hr : h.Leads host W s noNames good r) :
    h.Leads host W s fresh good r :=
  hr.weaken fun _ _ hn => hn.elim

/-- What comes next is only to be looked at if the first part comes to its end. -/
theorem Leads.bind {x : Eval α} {f : α → Eval β} (hx : h.Leads host W s fresh good (x s₁))
    (hf : ∀ a s₂, x s₁ = .ok a s₂ → h.Leads host W s fresh good' (f a s₂)) :
    h.Leads host W s fresh good' ((x >>= f) s₁) := by
  show h.Leads host W s fresh good' (EStateM.bind x f s₁)
  unfold EStateM.bind
  cases hr : x s₁ with
  | ok a s₂ => exact hf a s₂ hr
  | error stop s₂ =>
    rw [hr] at hx
    exact hx

/-- A step that only gives a result. -/
theorem Leads.pure (hgood : h.Good host W s) {a : α} (ha : good W s a) :
    h.Leads host W s fresh good ((Pure.pure a : Eval α) s) :=
  ⟨W, .refl hgood, ha⟩

/-- A step that stops for a reason that the host explains. -/
theorem Leads.throw (hgood : h.Good host W s) {stop : Stop} (hstop : host.Explains stop) :
    h.Leads host W s fresh good ((MonadExcept.throw stop : Eval α) s) :=
  ⟨hstop, W, .refl hgood⟩

end Leads

/-- A declaration comes to its end once its name is bound. -/
theorem Executed.normal {ρ : Type} {node : Node ρ} (hb : ∀ n ∈ node.declared, s.Binds e.own n) :
    h.Executed e node W s .normal :=
  ⟨fun _ hv => (by cases hv), hb⟩

/-- What is no declaration may return. -/
theorem Leads.executed {ρ : Type} {node : Node ρ} {r : EStateM.Result Stop Store Outcome}
    (hr : h.Leads host W s noNames
      (fun W' s' outcome => ∀ v, outcome = .returned v → h.Genuine W' s' v) r)
    (hnode : node.declared = []) :
    h.Leads host W s (declaredOn e node) (h.Executed e node) r := by
  have hr' : h.Leads host W s (declaredOn e node) _ r := hr.of_none
  cases r with
  | error stop s' => exact hr'
  | ok outcome s' =>
    obtain ⟨W', hl, hreturned⟩ := hr'
    exact ⟨W', hl, hreturned, fun n hn => by rw [hnode] at hn; cases hn⟩

/-- What happens inside a new frame binds no names in the frames that were there. -/
theorem Later.inFrame {e' : Environment} {ρ : Type} {node : Node ρ}
    (hl : h.Later host W s W₁ s₁ noNames) (hl' : h.Later host W₁ s₁ W₂ s₂ (declaredOn e' node))
    (he : s.frames.next ≤ e'.own) : h.Later host W s W₂ s₂ noNames := by
  refine ⟨hl.worlds.trans hl'.worlds, hl.grows.trans hl'.grows, hl'.good, fun ht f n hf hb => ?_⟩
  rcases hl'.kept ht f n (Nat.lt_of_lt_of_le hf hl.grows.next) hb with hb | ⟨hown, -⟩
  · exact hl.kept ht f n hf hb
  · subst hown
    exact absurd hf (Nat.not_lt.2 he)

/-- What happened in frames that were made on the way binds nothing in the frames of before. -/
theorem Leads.inFrame {e' : Environment} {ρ : Type} {node : Node ρ} {α : Type}
    {good : World → Store → α → Prop} {r : EStateM.Result Stop Store α}
    (hr : h.Leads host W₁ s₁ (declaredOn e' node) good r) (hl : h.Later host W s W₁ s₁ noNames)
    (he : s.frames.next ≤ e'.own) : h.Leads host W s noNames good r := by
  cases r with
  | ok a s' =>
    obtain ⟨W', hl', ha⟩ := hr
    exact ⟨W', hl.inFrame hl' he, ha⟩
  | error stop s' =>
    obtain ⟨hstop, W', hl'⟩ := hr
    exact ⟨hstop, W', hl.inFrame hl' he⟩

/-! ## Names -/

/-- What a program writes as it is holds no functions. -/
theorem genuine_literal (l : Literal) : h.Genuine W s l.value := by cases l <;> trivial

/-- What is read is genuine. -/
theorem leads_read (hgood : h.Good host W s) {n : Name} (hn : '\n' ∉ n.text.toList) (a : Address) :
    h.Leads host W s fresh h.Genuine (Eval.read e n a s) := by
  -- What is read was in a frame, or it is not there, and then the fault names it in one line.
  cases a with
  | global =>
    rw [read_global]
    split
    · next v hv => exact ⟨W, .refl hgood, hgood.values _ _ v hv⟩
    · exact ⟨.inl (Fault.undefinedVariable_oneLine hn), W, .refl hgood⟩
  | scope d =>
    rw [read_scope]
    split
    · next v hv =>
      obtain ⟨f, -, hf⟩ := Option.bind_eq_some_iff.1 hv
      exact ⟨W, .refl hgood, hgood.values f _ v hf⟩
    · exact ⟨trivial, W, .refl hgood⟩

/-- Where a name is found in a scope there is a frame that stands for the scope. -/
theorem At.ancestor (hat : h.At W s v e) {n : String} {d : Nat}
    (ha : v.place.scoping.address n = .scope d) :
    ∃ f σ o, e.ancestor? d = some f ∧ v.place.scoping.scopes[d]? = some σ ∧
      v.place.openers[d]? = some o ∧ h.Level W s v f σ o (e.chain.drop (d + 1)) ∧
      σ.holds n = true ∧
      ∀ i < d, ∀ σ', v.place.scoping.scopes[i]? = some σ' → σ'.holds n = false := by
  obtain ⟨σ, hσ, hholds, hinner⟩ := Scoping.address_eq_scope ha
  obtain ⟨f, o, hf, ho, hl⟩ := hat.fits.get hσ
  exact ⟨f, σ, o, hf, hσ, ho, hl, hholds, hinner⟩

/-- A name is bound to a genuine value where a name that is found in a scope belongs. In a tame program
it is bound there already. -/
theorem leads_write (hgood : h.Good host W s) (hat : h.At W s v e) {n : Name} {a : Value}
    (hn : v.Mentions n.text) (hname : IsName n.text) (ha : h.Genuine W s a) :
    h.Leads host W s noNames (fun _ _ _ => True)
      (Eval.write e n (v.place.scoping.address n.text) a s) := by
  -- A name may be put into any frame where it belongs, if no receiver is held there.
  have hwrite : ∀ f, f < s.frames.next → (f ≠ globalFrame → ¬s.Binds f thisName) →
      (∀ o, W[f]? = some (some o) → n.text ∈ o.declared) → (h.Tame → s.Binds f n.text) →
      h.Later host W s W (s.withName f n.text a) noNames := fun f hf hthis hdeclared hbinds =>
    .withName hgood hf hthis (ha.mono List.prefix_rfl (.withName hf hthis _)) hdeclared
      fun ht => .inl (hbinds ht)
  cases haddress : v.place.scoping.address n.text with
  | global =>
    rw [write_global]
    split
    · next old hold =>
      have hb : s.Binds globalFrame n.text := ⟨old, hold⟩
      refine ⟨W, hwrite globalFrame hb.lt (absurd rfl) (fun o ho => ?_) fun _ => hb, trivial⟩
      rw [hgood.global] at ho
      cases ho
    · exact ⟨.inl (Fault.undefinedVariable_oneLine hname.not_mem_lineFeed), W, .refl hgood⟩
  | scope d =>
    obtain ⟨f, σ, o, hf, hσ, ho, hl, hholds, -⟩ := hat.ancestor haddress
    obtain ⟨ready, hmem⟩ := Scope.holds_iff.1 hholds
    have hopened := (h.sound hat.visited).place.openedBy hσ ho
    have hdeclared := hopened.declared _ _ hmem
    rw [write_scope, hf]
    refine ⟨W, hwrite f (hgood.owner_lt hl.owner) (fun _ => hl.not_receiver hgood hopened hdeclared hname.ne_thisName)
      (fun o' ho' => ?_) fun ht => ?_, trivial⟩
    · rw [hl.owner] at ho'
      obtain rfl := Option.some.inj (Option.some.inj ho')
      exact hdeclared
    · cases ready with
      | true => exact hl.ready _ hmem
      -- A tame history writes no name whose declaration is not done.
      | false =>
        exact absurd hmem (ht.ready v hat.visited σ (List.mem_of_getElem? hσ) _ hn)

/-! ## Steps -/

namespace Stands

variable {d' : Nat} {e' : Environment} {node : Node Address}

/-- A part of a node stands where the node does, on what was left before. -/
theorem part {a : Activation} (hh : h.happens host a) (hgood : h.Good host W s) (hat : h.At W s v e)
    (hc : Calls host a (.node d' e node s₁)) (hl : h.Later host W s W₁ s₁ noNames)
    (hw : w ∈ v.parts) (hnode : w.resolved = node)
    (hscopes : w.place.scoping.scopes = v.place.scoping.scopes)
    (hopeners : w.place.openers = v.place.openers) :
    h.Stands host W₁ (.node d' e node s₁) :=
  ⟨h.calls hh hc, hl.good, w, hnode, (hat.later hgood hl).part hw hscopes hopeners⟩

/-- A visit whose resolved node is an expression is the visit of an expression. -/
theorem exists_expression {x : Expr Address} (hs : h.Stands host W (.node d e (.expression x) s)) :
    ∃ p u, x = (Expr.resolve p.scoping u).value ∧ h.At W s ⟨p, .expression u⟩ e := by
  obtain ⟨-, -, ⟨p, unit⟩, hv, hat⟩ := hs
  cases unit with
  | expression u => exact ⟨p, u, (Node.expression.inj hv).symm, hat⟩
  | _ => cases hv

/-- From an expression to its parts, at any later time. -/
theorem of_expression {x : Expr Address} (hs : h.Stands host W (.node (d + 1) e (.expression x) s))
    (hc : Calls host (.node (d + 1) e (.expression x) s) (.node d' e' node s₁))
    (hl : h.Later host W s W₁ s₁ noNames) : h.Stands host W₁ (.node d' e' node s₁) := by
  obtain ⟨p, u, rfl, hat⟩ := hs.exists_expression
  have hh := hs.happens
  have hgood : h.Good host W s := hs.good
  have hcall := hc
  -- Operands are the first or the second part of an expression, and no scope is in between.
  cases u with
  | this line m =>
    simp only [Expr.resolve] at hc
    split at hc <;> cases hc
  | _ =>
    cases hc
    all_goals first
      | exact part hh hgood hat hcall hl List.mem_cons_self rfl rfl rfl
      | exact part hh hgood hat hcall hl (List.mem_cons_of_mem _ List.mem_cons_self) rfl rfl rfl

/-- From arguments to the first of them, and to the others. -/
theorem of_arguments {xs : List (Expr Address)} (hs : h.Stands host W (.node d e (.arguments xs) s))
    (hc : Calls host (.node d e (.arguments xs) s) (.node d' e' node s₁))
    (hl : h.Later host W s W₁ s₁ noNames) : h.Stands host W₁ (.node d' e' node s₁) := by
  obtain ⟨hh, hgood, ⟨p, unit⟩, hv, hat⟩ := hs
  obtain ⟨us, rfl, rfl⟩ : ∃ us, unit = .arguments us ∧
      (Expr.resolveList p.scoping us).value = xs := by
    cases unit with
    | arguments us => exact ⟨us, rfl, Node.arguments.inj hv⟩
    | _ => cases hv
  -- The arguments are those of a visit, the first and the others.
  have hcall := hc
  cases us with
  | nil => cases hc
  | cons u us =>
    cases hc with
    | argument => exact part hh hgood hat hcall hl List.mem_cons_self rfl rfl rfl
    | laterArguments hx =>
      exact part hh hgood hat hcall hl (List.mem_cons_of_mem _ List.mem_cons_self) rfl rfl rfl

/-- A visit whose resolved node is a statement is the visit of a statement. -/
theorem exists_statement {t : Stmt Address} (hs : h.Stands host W (.node d e (.statement t) s)) :
    ∃ p u, t = (Stmt.resolve p.scoping u).value ∧ h.At W s ⟨p, .statement u⟩ e := by
  obtain ⟨-, -, ⟨p, unit⟩, hv, hat⟩ := hs
  cases unit with
  | statement u => exact ⟨p, u, (Node.statement.inj hv).symm, hat⟩
  | _ => cases hv

/-- The statements that are executed are resolved ones, of a visited body. -/
theorem exists_body {ts : List (Stmt Address)} (hs : h.Stands host W (.node d e (.body ts) s)) :
    ∃ p us, ts = (Stmt.resolveList p.scoping us).value ∧ h.At W s ⟨p, .body us⟩ e := by
  obtain ⟨-, -, ⟨p, unit⟩, hv, hat⟩ := hs
  cases unit with
  | body us => exact ⟨p, us, (Node.body.inj hv).symm, hat⟩
  | _ => cases hv

/-- What a statement leads to in its own environment. -/
theorem of_statement {t : Stmt Address} (hs : h.Stands host W (.node (d + 1) e (.statement t) s))
    (hc : Calls host (.node (d + 1) e (.statement t) s) (.node d' e' node s₁)) (he : e' = e)
    (hl : h.Later host W s W₁ s₁ noNames) : h.Stands host W₁ (.node d' e' node s₁) := by
  obtain ⟨p, u, rfl, hat⟩ := hs.exists_statement
  have hh := hs.happens
  have hgood : h.Good host W s := hs.good
  have hcall := hc
  -- The parts of a statement stand in its environment, except that the frame of a block is a new one and
  -- that an initializer lies in a place of its own.
  cases u with
  | expression u | print u =>
    cases hc
    exact part hh hgood hat hcall hl List.mem_cons_self rfl rfl rfl
  | var n x =>
    cases x with
    | none => cases hc
    | some x =>
      cases hc
      exact ⟨h.calls hh hcall, hl.good, _, rfl, (hat.initializer hh).later hgood hl⟩
  | block us =>
    cases hc
    have hdepth : (e.extend s.frames.next).enclosing.length = e.enclosing.length := by rw [he]
    exact absurd hdepth (Nat.succ_ne_self _)
  | branch x t f =>
    cases f with
    | none =>
      cases hc with
      | condition => exact part hh hgood hat hcall hl List.mem_cons_self rfl rfl rfl
      | onTrue hx hv =>
        exact part hh hgood hat hcall hl (List.mem_cons_of_mem _ List.mem_cons_self) rfl rfl rfl
    | some f =>
      cases hc with
      | condition => exact part hh hgood hat hcall hl List.mem_cons_self rfl rfl rfl
      | onTrue hx hv =>
        exact part hh hgood hat hcall hl (List.mem_cons_of_mem _ List.mem_cons_self) rfl rfl rfl
      | onFalse hx hv =>
        exact part hh hgood hat hcall hl
          (List.mem_cons_of_mem _ (List.mem_cons_of_mem _ List.mem_cons_self)) rfl rfl rfl
  | «return» line x =>
    cases x with
    | none => cases hc
    | some x =>
      cases hc
      exact part hh hgood hat hcall hl List.mem_cons_self rfl rfl rfl
  | «while» | function | «class» => cases hc

/-- A loop stands where its statement does. -/
theorem of_while {x : Expr Address} {b : Stmt Address}
    (hs : h.Stands host W (.node (d + 1) e (.statement (.while x b)) s)) :
    h.Stands host W (.loop host.rounds d e x b s) :=
  ⟨h.calls hs.happens .loop, hs.good, hs.proper⟩

/-- A visit whose resolved node is a loop is the visit of a loop. -/
theorem exists_loop {rounds : Nat} {x : Expr Address} {b : Stmt Address}
    (hs : h.Stands host W (.loop rounds d e x b s)) : ∃ p u t, (Expr.resolve p.scoping.inside u).value = x ∧
      (Stmt.resolve p.scoping.inside t).value = b ∧ h.At W s ⟨p, .statement (.while u t)⟩ e := by
  obtain ⟨-, -, ⟨p, unit⟩, hv, hat⟩ := hs
  cases unit with
  | statement t =>
    cases t with
    | «while» u t =>
      obtain ⟨hu, ht⟩ := Stmt.while.inj (Node.statement.inj hv)
      exact ⟨p, u, t, hu, ht, hat⟩
    | _ => cases hv
  | _ => cases hv

/-- What a round of a loop leads to. -/
theorem of_loop {rounds : Nat} {x : Expr Address} {b : Stmt Address}
    (hs : h.Stands host W (.loop rounds d e x b s))
    (hc : Calls host (.loop rounds d e x b s) (.node d' e' node s₁))
    (hl : h.Later host W s W₁ s₁ noNames) : h.Stands host W₁ (.node d' e' node s₁) := by
  obtain ⟨p, u, t, rfl, rfl, hat⟩ := hs.exists_loop
  have hcall := hc
  cases hc with
  | loopCondition => exact part hs.happens hs.good hat hcall hl List.mem_cons_self rfl rfl rfl
  | loopBody hx hv =>
    exact part hs.happens hs.good hat hcall hl (List.mem_cons_of_mem _ List.mem_cons_self) rfl rfl rfl

/-- The rounds of a loop after one that came to its end. -/
theorem of_loopAgain {rounds : Nat} {x : Expr Address} {b : Stmt Address} {a : Value} {s₂ : Store}
    (hs : h.Stands host W (.loop (rounds + 1) d e x b s)) (hx : evaluate host d e x s = .ok a s₂)
    (ha : a.isTruthy = true) (hb : execute host d e b s₂ = .ok .normal s₁)
    (hl : h.Later host W s W₁ s₁ noNames) : h.Stands host W₁ (.loop rounds d e x b s₁) := by
  obtain ⟨v, hv, hat⟩ := hs.proper
  exact ⟨h.calls hs.happens (.loopAgain hx ha hb), hl.good, v, hv, hat.later hs.good hl⟩

/-- What stands where a name does is one. -/
theorem isName (hs : h.Stands host W (.node d e node s)) {n : String} (hn : n ∈ node.names) :
    IsName n := by
  obtain ⟨v, rfl, hat⟩ := hs.proper
  rw [v.names_resolved] at hn
  exact (h.sound hat.visited).worded.names n hn

/-- A statement inside a conditional declares nothing. -/
theorem nested (hs : h.Stands host W (.node d e node s)) : node.Nested := by
  obtain ⟨v, rfl, hat⟩ := hs.proper
  exact Visit.nested_resolved (h.sound hat.visited).worded.nested

/-- The body of a loop declares nothing. -/
theorem nested_loop {rounds : Nat} {x : Expr Address} {b : Stmt Address}
    (hs : h.Stands host W (.loop rounds d e x b s)) : b.declared = [] := by
  obtain ⟨v, hv, hat⟩ := hs.proper
  have hnested := Visit.nested_resolved (h.sound hat.visited).worded.nested
  rw [hv] at hnested
  exact hnested

/-- From a block to its body, in a frame of its own. -/
theorem of_block {ts : List (Stmt Address)}
    (hs : h.Stands host W (.node (d + 1) e (.statement (.block ts)) s)) :
    ∃ W', h.Later host W s W' (s.withFrame {}) noNames ∧
      h.Stands host W' (.node d (e.extend s.frames.next) (.body ts) (s.withFrame {})) := by
  obtain ⟨p, u, ht, hat⟩ := hs.exists_statement
  have hcall := h.calls hs.happens .block
  have hhappens := hs.happens
  have hgood : h.Good host W s := hs.good
  -- The block is that of a visit, which the new frame is made for.
  cases u with
  | block us =>
    cases ht
    have hl : h.Later host W s (W ++ [some (.block p.scoping us)]) (s.withFrame {}) noNames :=
      .withFrame hgood _ (fun n a ha => by cases ha) fun n a ha => by cases ha
    exact ⟨_, hl, hcall, hl.good, _, rfl, hat.inBlock hgood hhappens⟩
  | _ => cases ht

/-- From a body to its first statement. -/
theorem of_body {t : Stmt Address} {ts : List (Stmt Address)}
    (hs : h.Stands host W (.node d e (.body (t :: ts)) s)) :
    h.Stands host W (.node d e (.statement t) s) := by
  obtain ⟨p, us, hts, hat⟩ := hs.exists_body
  cases us with
  | nil => cases hts
  | cons u us =>
    cases hts
    exact part hs.happens hs.good hat .statement (.refl hs.good) List.mem_cons_self rfl rfl rfl

/-- The statements after one that came to its end. -/
theorem of_later {t : Stmt Address} {ts : List (Stmt Address)}
    (hs : h.Stands host W (.node d e (.body (t :: ts)) s)) (ht : execute host d e t s = .ok .normal s₁)
    (hl : h.Later host W s W₁ s₁ (declaredOn e (.statement t)))
    (hx : h.Executed e (.statement t) W₁ s₁ .normal) : h.Stands host W₁ (.node d e (.body ts) s₁) := by
  obtain ⟨p, us, hts, hat⟩ := hs.exists_body
  have hcall := h.calls hs.happens (.laterStatements ht)
  cases us with
  | nil => cases hts
  | cons u us =>
    cases hts
    -- The names of the statement are bound now, so the others stand behind its declaration.
    have hdeclared : ∀ n, n ∈ (u.resolve p.scoping).value.declared ↔ n ∈ u.declared := fun n => by
      rw [u.declared_resolve]
    have hl' : h.Later host W s W₁ s₁ (declaredOn e (.statement u)) :=
      hl.weaken fun f n hn => ⟨hn.1, (hdeclared n).1 hn.2⟩
    refine ⟨hcall, hl.good, ⟨p.after u, .body us⟩, rfl, hat.after hs.good hl' fun n hn => ?_⟩
    exact hx.2 n ((hdeclared n).2 hn)

/-- From a call of a function to its body, in a frame with the parameters. -/
theorem of_routine {i : Nat} {c : Closure} {vs : List Value}
    (hs : h.Stands host W (.call (d + 1) (.function i c) vs s)) :
    ∃ W', h.Later host W s W' (s.withFrame (parameterTable c.routine.parameters vs)) noNames ∧
      h.Stands host W' (.node d (c.environment.extend s.frames.next) (.body c.routine.body)
        (s.withFrame (parameterTable c.routine.parameters vs))) := by
  obtain ⟨hh, hgood, hfunction, hvs, hcount⟩ := hs
  obtain ⟨W', p, kind, r, hl, -, hv, hat⟩ := hfunction.body hgood hvs (Option.some.inj hcount) hh
  exact ⟨W', hl, h.calls hh .routine, hl.good, _, hv, hat⟩

/-- The methods of a class are genuine. -/
theorem method_of_class {i : Nat} {c : Class} {vs : List Value}
    (hs : h.Stands host W (.call d (.class i c) vs s)) {n : String} {m : Closure}
    (hm : c.methods.find? n = some m) : h.IsMethod W s m :=
  hs.proper.1 n m hm

end Stands

/-- A new instance is genuine, and nothing else is changed. -/
theorem later_newObject (hgood : h.Good host W s) {c : Class}
    (hc : ∀ n m, c.methods.find? n = some m → h.IsMethod W s m) {receiver : Value}
    (hr : newObject c s = .ok receiver s₁) :
    h.Later host W s W s₁ noNames ∧ h.Genuine W s₁ receiver ∧ receiver = .object s.fields.next c := by
  cases hr
  -- The new instance has no fields yet, and its methods are those of the class.
  have hnext : (s.fields.add {}).next = s.fields.next + 1 := Frames.next_add _ _
  have hl : h.Later host W s W { s with fields := s.fields.add {} } noNames := by
    refine .of_frames hgood rfl (Nat.le_of_lt (hnext ▸ Nat.lt_succ_self _)) (fun f n v hv => ?_) hgood.shown
    change (s.fields.add {}).find? f n = some v at hv
    rw [Frames.find?_add] at hv
    split at hv
    · cases hv
    · exact hgood.fields f n v hv
  refine ⟨hl, ⟨?_, fun n m hm => (hc n m hm).mono List.prefix_rfl hl.grows⟩, rfl⟩
  show s.fields.next < (s.fields.add {}).next
  rw [hnext]
  exact Nat.lt_succ_self _

/-- A field holds a genuine value, and nothing else is changed. -/
theorem later_setField (hgood : h.Good host W s) {a : Value} (ha : h.Genuine W s a) (i : Nat)
    (name : String) :
    h.Later host W s W { s with fields := s.fields.put i name a } noNames := by
  have hnext : (s.fields.put i name a).next = s.fields.next := Frames.next_put _ _ _ _
  refine .of_frames hgood rfl (Nat.le_of_eq hnext.symm) (fun f n b hb => ?_) hgood.shown
  rcases s.fields.find?_put_cases hb with ⟨-, -, rfl⟩ | hb
  · exact ha
  · exact hgood.fields f n b hb

/-- A property of a genuine value is genuine, if it is there or its name fits on a line. A method is bound
in the run. -/
theorem leads_property (hgood : h.Good host W s) {a : Value} (ha : h.Genuine W s a) {n : Name}
    (hn : '\n' ∉ n.text.toList ∨ hasProperty s a n.text = true)
    (hbind : ∀ i c m, a = .object i c → s.fields.find? i n.text = none →
      c.methods.find? n.text = some m → h.happens host (.bind m a s)) :
    h.Leads host W s noNames h.Genuine (Eval.property a n s) := by
  have hnow : h.Later host W s W s noNames := .refl hgood
  cases a with
  | object i c =>
    rw [property_object]
    cases hfield : s.fields.find? i n.text with
    | some field => exact ⟨W, hnow, hgood.fields _ _ _ hfield⟩
    | none =>
      cases hm : c.methods.find? n.text with
      | none =>
        refine ⟨.inl (Fault.undefinedProperty_oneLine (hn.resolve_right fun hp => ?_)), W, hnow⟩
        -- There is neither a field nor a method.
        simp [hasProperty, hfield, hm] at hp
      | some m =>
        obtain ⟨W₁, j, s₁, hf, hl₁, -, hf₁⟩ :=
          (ha.2 n.text m hm).bind hgood ha (hbind i c m rfl hfield hm)
        have hbound : h.Leads host W s noNames h.Genuine (bindMethod m (.object i c) s) := by
          rw [hf]
          exact ⟨W₁, hl₁, hf₁⟩
        exact hbound
  | _ => exact ⟨.inl (by decide), W, hnow⟩

namespace Stands

/-- A new instance is given to the initializer of its class. -/
theorem of_class {i : Nat} {c : Class} {vs : List Value} {receiver : Value} {m : Closure}
    (hs : h.Stands host W (.call (d + 1) (.class i c) vs s))
    (hr : newObject c s = .ok receiver s₁) (hm : c.methods.find? initializerName = some m) :
    h.Later host W s W s₁ noNames ∧ h.Stands host W (.bind m receiver s₁) := by
  obtain ⟨hl, hreceiver, hobject⟩ := later_newObject hs.good (fun _ _ hn => hs.method_of_class hn) hr
  exact ⟨hl, h.calls hs.happens (.initializerBound hr hm), hl.good,
    (hs.method_of_class hm).mono List.prefix_rfl hl.grows, hreceiver, _, _, hobject⟩

/-- From a call of a class to that of its initializer, which was bound to the new instance. -/
theorem of_initializer {i : Nat} {c : Class} {vs : List Value} {receiver f : Value} {m : Closure}
    (hs : h.Stands host W (.call (d + 1) (.class i c) vs s))
    (hr : newObject c s = .ok receiver s₁) (hm : c.methods.find? initializerName = some m)
    (hf : bindMethod m receiver s₁ = .ok f s₂) :
    ∃ W', h.Later host W s W' s₂ noNames ∧ h.Genuine W' s₂ receiver ∧
      h.Stands host W' (.call d f vs s₂) := by
  obtain ⟨hl, hbind⟩ := hs.of_class hr hm
  obtain ⟨W', j, s', hf', hl', -, hc'⟩ :=
    hbind.proper.1.bind hl.good hbind.proper.2.1 hbind.happens
  rw [hf] at hf'
  cases hf'
  have hl'' := hl.trans hl'
  -- The initializer takes as many arguments as the class, since its arity is that of the class.
  have hcount : Value.arity? (.class i c) = some vs.length := hs.proper.2.2
  refine ⟨W', hl'', hbind.proper.2.1.mono hl'.worlds hl'.grows,
    h.calls hs.happens (.initializerCalled hr hm hf), hl'.good, hc',
    fun a ha => (hs.proper.2.1 a ha).mono hl''.worlds hl''.grows, ?_⟩
  unfold Value.arity? at hcount
  simp only [hm] at hcount
  exact hcount

end Stands
end History

end Treewalk
