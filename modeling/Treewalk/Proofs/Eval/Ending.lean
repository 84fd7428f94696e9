import Treewalk.Proofs.Eval.Standing

/-!
# How activations end

`Activation.result` is what an activation comes to: a value, an outcome, or a stop, and the store that it
leaves. A statement that returns ends the statements around it as well: each of them comes to the same
outcome on the same store, and begins nothing else (`Passes`, `passes_of_calls`).

Whether a statement may return, and what, is decided when it is resolved: a statement of the outermost
code never returns, and one of an initializer returns nothing but nil (`History.mayReturn_of_statement`).
-/

namespace Treewalk

/-- What an activation comes to if it does not stop. -/
inductive Ending where
  | value (v : Value)
  | values (vs : List Value)
  | outcome (o : Outcome)
  /-- The value of the last statement of a program, if it has one. -/
  | last (v : Option Value)

namespace Activation

/-- What an activation does with the store that it begins with. Routines and methods are not run where
they are declared. -/
def run (host : Host) : Activation → Eval Ending
  | node d e (.expression x) _ => Ending.value <$> evaluate host d e x
  | node d e (.arguments xs) _ => Ending.values <$> xs.mapM (evaluate host d e)
  | node d e (.statement t) _ => Ending.outcome <$> execute host d e t
  | node d e (.body ts) _ => Ending.outcome <$> Eval.inOrder (execute host d e) ts
  | node _ _ (.routine _ _) _ | node _ _ (.methods _) _ => pure (.values [])
  | loop rounds d e x b _ =>
    Ending.outcome <$> Eval.loop (Eval.round (evaluate host d e x) (execute host d e b)) rounds
  | call d f vs _ => Ending.value <$> Treewalk.call host d f vs
  | bind m receiver _ => Ending.value <$> Eval.bindMethod m receiver
  | program d ts _ => Ending.last <$> runProgram host d ts

/-- What an activation comes to, and the store that it leaves. -/
def result (host : Host) (a : Activation) : EStateM.Result Stop Store Ending := a.run host a.store

/-- The part of a program that an activation runs. The rounds of a loop run the loop. -/
def code? : Activation → Option (Node Address)
  | node _ _ n _ => some n
  | loop _ _ _ x b _ => some (.statement (.while x b))
  | _ => none

/-- How late a part of a statement is: an expression comes first, then a statement, and last what
remains of a body or of a loop. What is no part of a statement counts as an expression. -/
def stage : Activation → Nat
  | node _ _ (.statement _) _ => 1
  | node _ _ (.body _) _ | loop _ _ _ _ _ _ => 2
  | _ => 0

variable {host : Host} {a b : Activation} {d n : Nat} {e : Environment} {s s' : Store} {o : Outcome}
  {v : Value}

/-- A statement ends as an ending that is marked as that of a statement. -/
theorem outcome_eq_ok {x : Eval Outcome} :
    (Ending.outcome <$> x) s = .ok (.outcome o) s' ↔ x s = .ok o s' := by
  refine Eval.map_eq_ok.trans ⟨?_, fun h => ⟨o, h, rfl⟩⟩
  rintro ⟨o', h, ho⟩
  cases ho
  exact h

/-- What the activation of a statement results in is what executing it does. -/
theorem result_statement {t : Stmt Address} : (node d e (.statement t) s).result host =
    .ok (.outcome o) s' ↔ execute host d e t s = .ok o s' :=
  outcome_eq_ok

/-- The same for a body. -/
theorem result_body {ts : List (Stmt Address)} : (node d e (.body ts) s).result host =
    .ok (.outcome o) s' ↔ Eval.inOrder (execute host d e) ts s = .ok o s' :=
  outcome_eq_ok

/-- The same for a loop. -/
theorem result_loop {x : Expr Address} {b : Stmt Address} : (loop n d e x b s).result host =
    .ok (.outcome o) s' ↔
      Eval.loop (Eval.round (evaluate host d e x) (execute host d e b)) n s = .ok o s' :=
  outcome_eq_ok

end Activation

open Eval Activation

/-! ## Returning -/

section Returned

variable {host : Host} {d n : Nat} {e : Environment} {s s' : Store} {v : Value}

/-- A body returns if one of its statements does, after all before it came to their ends. -/
theorem inOrder_cons_eq_returned {exec : Stmt Address → Eval Outcome} {t : Stmt Address}
    {ts : List (Stmt Address)} : inOrder exec (t :: ts) s = .ok (.returned v) s' ↔
      exec t s = .ok (.returned v) s' ∨
        ∃ s₁, exec t s = .ok .normal s₁ ∧ inOrder exec ts s₁ = .ok (.returned v) s' := by
  -- The first statement ends normally and the others return, or it returns itself.
  refine bind_eq_ok.trans ⟨?_, ?_⟩
  · rintro ⟨outcome, s₁, ht, hrest⟩
    cases outcome with
    | normal => exact .inr ⟨s₁, ht, hrest⟩
    | returned w =>
      cases hrest
      exact .inl ht
  · rintro (ht | ⟨s₁, ht, hrest⟩)
    · exact ⟨_, _, ht, rfl⟩
    · exact ⟨_, _, ht, hrest⟩

/-- A loop returns if the body returns in one of its rounds. -/
theorem loop_succ_eq_returned {x : Eval Value} {b : Eval Outcome} :
    Eval.loop (round x b) (n + 1) s = .ok (.returned v) s' ↔
      ∃ a s₁, x s = .ok a s₁ ∧ a.isTruthy = true ∧ (b s₁ = .ok (.returned v) s' ∨
        ∃ s₂, b s₁ = .ok .normal s₂ ∧ Eval.loop (round x b) n s₂ = .ok (.returned v) s') := by
  -- The body of the first round returns, or it ends normally and a later round returns.
  refine bind_eq_ok.trans ⟨?_, ?_⟩
  · rintro ⟨o, s₂, hround, hrest⟩
    cases o with
    | none => cases hrest
    | some o =>
      obtain ⟨a, s₁, hx, ha, hb⟩ := round_eq_some.1 hround
      cases o with
      | normal => exact ⟨a, s₁, hx, ha, .inr ⟨s₂, hb, hrest⟩⟩
      | returned w =>
        cases hrest
        exact ⟨a, s₁, hx, ha, .inl hb⟩
  · rintro ⟨a, s₁, hx, ha, hb | ⟨s₂, hb, hrest⟩⟩
    · exact ⟨_, _, round_eq_some.2 ⟨a, s₁, hx, ha, hb⟩, rfl⟩
    · exact ⟨_, _, round_eq_some.2 ⟨a, s₁, hx, ha, hb⟩, hrest⟩

end Returned

/-- A statement or a body that lies directly in another one, with no routine in between. -/
inductive Node.Encloses {ρ : Type} : Node ρ → Node ρ → Prop
  | block {ts} : Encloses (.statement (.block ts)) (.body ts)
  | onTrue {x t f} : Encloses (.statement (.branch x t f)) (.statement t)
  | onFalse {x t f} : Encloses (.statement (.branch x t (some f))) (.statement f)
  | while {x b} : Encloses (.statement (.while x b)) (.statement b)
  | first {t ts} : Encloses (.body (t :: ts)) (.statement t)
  | later {t ts} : Encloses (.body (t :: ts)) (.body ts)

/-- An activation passes on what a part of it returns. It comes to the same outcome on the same store,
and all else that it began came before that part. -/
structure Passes (host : Host) (v : Value) (s' : Store) (a b : Activation) : Prop where
  calls : Calls host a b
  inner : b.result host = .ok (.outcome (.returned v)) s'
  outer : a.result host = .ok (.outcome (.returned v)) s'
  last : ∀ c, Calls host a c → c = b ∨ c.stage < b.stage

variable {host : Host} {a b : Activation} {d n : Nat} {e : Environment} {s s₁ s' : Store} {v : Value}

/-- The code of an activation encloses the code of what it leads to, as long as no call is made. -/
theorem encloses_of_calls (hc : Calls host a b) (hb : 0 < b.stage) {outer inner : Node Address}
    (ha : a.code? = some outer) (hinner : b.code? = some inner) :
    Relation.ReflTransGen Node.Encloses outer inner := by
  have hcode : ∀ {o i : Node Address}, a.code? = some o → b.code? = some i →
      Relation.ReflTransGen Node.Encloses o i → Relation.ReflTransGen Node.Encloses outer inner := by
    intro o i ho hi h
    obtain rfl := Option.some.inj (ho.symm.trans ha)
    obtain rfl := Option.some.inj (hi.symm.trans hinner)
    exact h
  -- One step inwards for each rule. Calls and statements of a program have no code around them.
  cases hc with
  | block => exact hcode rfl rfl (.single .block)
  | onTrue => exact hcode rfl rfl (.single .onTrue)
  | onFalse => exact hcode rfl rfl (.single .onFalse)
  | loop | loopAgain => exact hcode rfl rfl .refl
  | loopBody => exact hcode rfl rfl (.single .while)
  | statement => exact hcode rfl rfl (.single .first)
  | laterStatements => exact hcode rfl rfl (.single .later)
  | routine | outermostStatement => cases ha
  | _ => cases hb

/-- A branch runs its first part if its condition is truthy. -/
theorem execute_onTrue {x : Expr Address} {t : Stmt Address} {f : Option (Stmt Address)}
    (hx : evaluate host d e x s = .ok v s₁) (hv : v.isTruthy = true) :
    execute host (d + 1) e (.branch x t f) s = execute host d e t s₁ := by
  refine (bind_of_ok hx).trans ?_
  rw [if_pos hv]

/-- A branch runs its second part if its condition is not truthy. -/
theorem execute_onFalse {x : Expr Address} {t f : Stmt Address}
    (hx : evaluate host d e x s = .ok v s₁) (hv : v.isTruthy = false) :
    execute host (d + 1) e (.branch x t (some f)) s = execute host d e f s₁ := by
  refine (bind_of_ok hx).trans ?_
  rw [hv, if_neg Bool.false_ne_true]

/-- A statement returns what a part of it returns. -/
theorem returned_of_calls (hc : Calls host a b) (ha : 0 < a.stage) (hb : 0 < b.stage)
    (hr : b.result host = .ok (.outcome (.returned v)) s') :
    a.result host = .ok (.outcome (.returned v)) s' := by
  cases hc with
  | block => exact result_statement.2 (result_body.1 hr)
  | onTrue hx hv => exact result_statement.2 ((execute_onTrue hx hv).trans (result_statement.1 hr))
  | onFalse hx hv => exact result_statement.2 ((execute_onFalse hx hv).trans (result_statement.1 hr))
  | loop => exact result_statement.2 (result_loop.1 hr)
  -- A loop returns in its first round, or after it in the others.
  | loopBody hx hv =>
    have hbody := result_statement.1 hr
    exact result_loop.2 (loop_succ_eq_returned.2 ⟨_, _, hx, hv, .inl hbody⟩)
  | loopAgain hx hv hbody =>
    have hagain := result_loop.1 hr
    exact result_loop.2 (loop_succ_eq_returned.2 ⟨_, _, hx, hv, .inr ⟨_, hbody, hagain⟩⟩)
  -- A body returns with its first statement, or after it with the others.
  | statement =>
    have hfirst := result_statement.1 hr
    exact result_body.2 (inOrder_cons_eq_returned.2 (.inl hfirst))
  | laterStatements ht =>
    have hlater := result_body.1 hr
    exact result_body.2 (inOrder_cons_eq_returned.2 (.inr ⟨_, ht, hlater⟩))
  -- All other activations are at least those of expressions or calls, which pass nothing on.
  | _ => cases ha <;> cases hb

/-- When a part of a statement returns, all else that the statement began came before that part. -/
theorem eq_or_stage_lt_of_calls (hc : Calls host a b) (ha : 0 < a.stage) (hb : 0 < b.stage)
    (hr : b.result host = .ok (.outcome (.returned v)) s') {c : Activation} (hac : Calls host a c) :
    c = b ∨ c.stage < b.stage := by
  -- What both activations rest on comes to the same value on the same store, so they can only differ
  -- where one of them comes earlier in the statement than the other.
  cases hc with
  | block | loop =>
    cases hac
    exact .inl rfl
  | onTrue hx hv =>
    cases hac with
    | condition => exact .inr Nat.zero_lt_one
    | onTrue hx' _ =>
      obtain ⟨rfl, rfl⟩ := EStateM.Result.ok.inj (hx.symm.trans hx')
      exact .inl rfl
    | onFalse hx' hv' =>
      obtain ⟨rfl, rfl⟩ := EStateM.Result.ok.inj (hx.symm.trans hx')
      cases hv.symm.trans hv'
  | onFalse hx hv =>
    cases hac with
    | condition => exact .inr Nat.zero_lt_one
    | onTrue hx' hv' =>
      obtain ⟨rfl, rfl⟩ := EStateM.Result.ok.inj (hx.symm.trans hx')
      cases hv.symm.trans hv'
    | onFalse hx' _ =>
      obtain ⟨rfl, rfl⟩ := EStateM.Result.ok.inj (hx.symm.trans hx')
      exact .inl rfl
  | loopBody hx _ =>
    cases hac with
    | loopCondition => exact .inr Nat.zero_lt_one
    | loopBody hx' _ =>
      obtain ⟨rfl, rfl⟩ := EStateM.Result.ok.inj (hx.symm.trans hx')
      exact .inl rfl
    | loopAgain hx' _ hb' =>
      -- The body returns, so there is no further round.
      obtain ⟨rfl, rfl⟩ := EStateM.Result.ok.inj (hx.symm.trans hx')
      cases (result_statement.1 hr).symm.trans hb'
  | loopAgain hx _ hbody =>
    cases hac with
    | loopCondition => exact .inr Nat.zero_lt_two
    | loopBody => exact .inr Nat.one_lt_two
    | loopAgain hx' _ hbody' =>
      obtain ⟨rfl, rfl⟩ := EStateM.Result.ok.inj (hx.symm.trans hx')
      obtain ⟨-, rfl⟩ := EStateM.Result.ok.inj (hbody.symm.trans hbody')
      exact .inl rfl
  | statement =>
    cases hac with
    | statement => exact .inl rfl
    | laterStatements ht => cases (result_statement.1 hr).symm.trans ht
  | laterStatements ht =>
    cases hac with
    | statement => exact .inr Nat.one_lt_two
    | laterStatements ht' =>
      obtain ⟨-, rfl⟩ := EStateM.Result.ok.inj (ht.symm.trans ht')
      exact .inl rfl
  | _ => cases ha <;> cases hb

/-- What a part of a statement returns is passed on by the statement. -/
theorem passes_of_calls (hc : Calls host a b) (ha : 0 < a.stage) (hb : 0 < b.stage)
    (hr : b.result host = .ok (.outcome (.returned v)) s') : Passes host v s' a b :=
  ⟨hc, hr, returned_of_calls hc ha hb hr, fun _ hac => eq_or_stage_lt_of_calls hc ha hb hr hac⟩

/-! ## What may be returned -/

/-- What a statement at a place may return: nothing in the outermost code, and nil in an initializer. -/
def Place.MayReturn (p : Place) (v : Value) : Prop :=
  ∃ kind, p.scoping.routine = some kind ∧ (kind = .initializer → v = .nil)

/-- A declaration before does not change what may be returned. -/
theorem Place.MayReturn.of_after {p : Place} {t : Stmt Unit} (h : (p.after t).MayReturn v) :
    p.MayReturn v := by
  have hroutine : (p.after t).scoping.routine = p.scoping.routine := by
    have hput : ∀ n ready, (p.scoping.put n ready).routine = p.scoping.routine := fun n ready => by
      unfold Scoping.put
      split <;> rfl
    cases t with
    | var n x | function n r | «class» n ms => exact hput n.text true
    | _ => rfl
  obtain ⟨kind, hkind, hnil⟩ := h
  exact ⟨kind, hroutine ▸ hkind, hnil⟩

namespace History

variable {h : History} {p : Place}

/-- A return statement at a sound visit stands in a routine, and in an initializer it has no value. -/
theorem mayReturn_of_return {line : Int} {x : Option (Expr Unit)}
    (hv : h.visits ⟨p, .statement (.return line x)⟩) (hx : x = none → v = .nil) : p.MayReturn v := by
  have hown : p.scoping.returnMisuses line x.isSome = [] :=
    (List.append_eq_nil_iff.1 (h.sound hv).ownFindings).2
  unfold Scoping.returnMisuses at hown
  cases hroutine : p.scoping.routine with
  | none =>
    rw [hroutine] at hown
    cases hown
  | some kind =>
    refine ⟨kind, hroutine, ?_⟩
    -- A value in the initializer of a class would have been reported.
    rintro rfl
    rw [hroutine] at hown
    cases x with
    | none => exact hx rfl
    | some x => cases hown

/-- What the statements of a body may return the body may return. -/
theorem mayReturn_of_body {exec : Stmt Address → Eval Outcome} {ts : List (Stmt Unit)}
    (hexec : ∀ {p t s}, h.visits ⟨p, .statement t⟩ →
      exec (t.resolve p.scoping).value s = .ok (.returned v) s' → p.MayReturn v)
    (hv : h.visits ⟨p, .body ts⟩)
    (hr : inOrder exec (Stmt.resolveList p.scoping ts).value s = .ok (.returned v) s') :
    p.MayReturn v := by
  induction ts generalizing p s with
  | nil => cases hr
  | cons t ts ih =>
    rcases inOrder_cons_eq_returned.1 hr with ht | ⟨s₁, -, hrest⟩
    · exact hexec (h.parts hv List.mem_cons_self) ht
    · exact (ih (h.parts hv (List.mem_cons_of_mem _ List.mem_cons_self)) hrest).of_after

/-- What the body of a loop may return the loop may return, after any number of rounds. -/
theorem mayReturn_of_loop {x : Eval Value} {b : Eval Outcome}
    (hb : ∀ {s}, b s = .ok (.returned v) s' → p.MayReturn v)
    (hr : Eval.loop (round x b) n s = .ok (.returned v) s') : p.MayReturn v := by
  induction n generalizing s with
  | zero => cases hr
  | succ n ih =>
    obtain ⟨a, s₁, -, -, hreturned | ⟨s₂, -, hrest⟩⟩ := loop_succ_eq_returned.1 hr
    · exact hb hreturned
    · exact ih hrest

/-- No statement of the outermost code returns, and none of an initializer returns anything but nil. -/
theorem mayReturn_of_statement {t : Stmt Unit} (hv : h.visits ⟨p, .statement t⟩)
    (hr : execute host d e (t.resolve p.scoping).value s = .ok (.returned v) s') : p.MayReturn v := by
  induction d generalizing p t e s with
  | zero => cases hr
  | succ d ih =>
    cases t with
    | expression x | print x | function n r | «class» n ms =>
      obtain ⟨a, s₁, -, hr⟩ := bind_eq_ok.1 hr
      cases hr
    | var n x =>
      cases x <;>
      · obtain ⟨a, s₁, -, hr⟩ := bind_eq_ok.1 hr
        cases hr
    -- A return that lies in a part of the statement is a return of the part.
    | block ts =>
      exact mayReturn_of_body (p := p.inBlock ts) ih (h.parts hv List.mem_cons_self) hr
    | branch x t f =>
      obtain ⟨a, s₁, -, hr⟩ := bind_eq_ok.1 hr
      cases htruthy : a.isTruthy with
      | true =>
        rw [htruthy, if_pos rfl] at hr
        refine ih (p := p.inside) (h.parts hv ?_) hr
        cases f <;> exact List.mem_cons_of_mem _ List.mem_cons_self
      | false =>
        rw [htruthy, if_neg Bool.false_ne_true] at hr
        cases f with
        | none => cases hr
        | some f =>
          exact ih (p := p.inside)
            (h.parts hv (List.mem_cons_of_mem _ (List.mem_cons_of_mem _ List.mem_cons_self))) hr
    | «while» x b =>
      have hbody : h.visits ⟨p.inside, .statement b⟩ :=
        h.parts hv (List.mem_cons_of_mem _ List.mem_cons_self)
      exact mayReturn_of_loop (fun hreturned => ih (p := p.inside) hbody hreturned) hr
    | «return» line x =>
      refine mayReturn_of_return hv fun hx => ?_
      subst hx
      cases hr
      rfl

end History

end Treewalk
