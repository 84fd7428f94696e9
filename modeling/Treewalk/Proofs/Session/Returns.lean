import Treewalk.Proofs.Eval.Growth
import Treewalk.Proofs.Session.History

/-!
# Where a return leads

A return statement ends the call of the routine whose body it stands in. The bodies, blocks, conditionals
and loops between the two come to the same end, one after another and with nothing begun in between, and
the call gives back what was returned. A call of an initializer gives back its instance and drops what
was returned, which can only be nil. The outermost code drops what its statements return as well, but
none of them returns.
-/

namespace Treewalk

open Eval Activation

variable {host : Host} {a b : Activation} {d : Nat} {e : Environment} {s s' : Store} {v : Value}
  {i : Nat} {c : Closure} {vs : List Value}

/-- The activation of the body of a called function. -/
def Activation.bodyOf (d : Nat) (c : Closure) (vs : List Value) (s : Store) : Activation :=
  .node d (c.environment.extend s.frames.next) (.body c.routine.body)
    (s.withFrame (parameterTable c.routine.parameters vs))

/-- An activation leads to another one, and both of them and all in between are statements, bodies and
loops. -/
abbrev Activation.Contains (host : Host) : Activation → Activation → Prop :=
  Relation.ReflTransGen fun a b => Calls host a b ∧ 0 < a.stage ∧ 0 < b.stage

/-- Whatever statement runs in a program is part of a statement of the program, or of the body of a
function that is called. -/
theorem exists_contains {ts : List (Stmt Address)}
    (hb : (Activation.program d ts s).LeadsTo host b) (hstage : 0 < b.stage) :
    (∃ d' t ts' s₀, (Activation.program d ts s).LeadsTo host (.program d' (t :: ts') s₀) ∧
        Activation.Contains host (.node d' (.outermost globalFrame) (.statement t) s₀) b) ∨
      ∃ d' i c vs s₀, (Activation.program d ts s).LeadsTo host (.call (d' + 1) (.function i c) vs s₀) ∧
        Activation.Contains host (.bodyOf d' c vs s₀) b := by
  induction hb with
  | refl => cases hstage
  | @tail a b ha hab ih =>
    rcases Nat.eq_zero_or_pos a.stage with hzero | hpos
    · -- Statements begin where a program runs one, or a function is called.
      cases hab with
      | routine => exact .inr ⟨_, _, _, _, _, ha, .refl⟩
      | outermostStatement => exact .inl ⟨_, _, _, _, ha, .refl⟩
      | block | onTrue | onFalse | loop | loopBody | loopAgain | statement | laterStatements =>
        cases hzero
      | _ => cases hstage
    · rcases ih hpos with ⟨d', t, ts', s₀, hroot, hc⟩ | ⟨d', i, c, vs, s₀, hroot, hc⟩
      · exact .inl ⟨d', t, ts', s₀, hroot, hc.tail ⟨hab, hpos, hstage⟩⟩
      · exact .inr ⟨d', i, c, vs, s₀, hroot, hc.tail ⟨hab, hpos, hstage⟩⟩

/-- All that is around a statement that returns passes it on. -/
theorem Activation.Contains.passes (h : Activation.Contains host a b)
    (hr : b.result host = .ok (.outcome (.returned v)) s') :
    Relation.ReflTransGen (Passes host v s') a b ∧
      a.result host = .ok (.outcome (.returned v)) s' := by
  induction h using Relation.ReflTransGen.head_induction_on with
  | refl => exact ⟨.refl, hr⟩
  | head hac _ ih =>
    have hpasses := passes_of_calls hac.1 hac.2.1 hac.2.2 ih.2
    exact ⟨.head hpasses ih.1, hpasses.outer⟩

/-- What contains a statement encloses it in the text. -/
theorem Activation.Contains.encloses (h : Activation.Contains host a b) {outer inner : Node Address}
    (ha : a.code? = some outer) (hb : b.code? = some inner) :
    Relation.ReflTransGen Node.Encloses outer inner := by
  induction h using Relation.ReflTransGen.head_induction_on generalizing outer with
  | refl =>
    cases ha.symm.trans hb
    exact .refl
  | @head a c hac _ ih =>
    -- In between there are statements, bodies and loops only, and each of them has code.
    obtain ⟨middle, hc⟩ : ∃ middle, c.code? = some middle := by
      have hstage := hac.2.2
      cases c with
      | node d e n s => exact ⟨n, rfl⟩
      | loop rounds d e x b s => exact ⟨_, rfl⟩
      | _ => cases hstage
    exact (encloses_of_calls hac.1 hac.2.2 ha hc).trans (ih hc)

/-- A function gives back what its body returns, but an initializer its receiver. -/
theorem call_of_returned
    (hr : (Activation.bodyOf d c vs s).result host = .ok (.outcome (.returned v)) s') :
    call host (d + 1) (.function i c) vs s =
      if c.isInitializer then read c.environment ⟨thisName, 0⟩ (.scope 0) s' else .ok v s' := by
  have hbody : inOrder (execute host d (c.environment.extend s.frames.next)) c.routine.body
      (s.withFrame (parameterTable c.routine.parameters vs)) = .ok (.returned v) s' := result_body.1 hr
  unfold call
  -- The frame for the parameters comes first, then the body.
  refine (bind_of_ok (x := extend _ _) rfl).trans ?_
  refine (bind_of_ok hbody).trans ?_
  cases c.isInitializer <;> rfl

/-- A call of a function ends with what a statement in its body returns. The function was made for a
routine of the program, and the statement stands in the body of it. An initializer drops what was
returned, which is nil, and gives back the instance that it was bound to. -/
structure History.Answers (h : History) (host : Host) (r : Activation) (v : Value) (s' : Store)
    (d i : Nat) (c : Closure) (vs : List Value) (s : Store) : Prop where
  happens : h.happens host (.call (d + 1) (.function i c) vs s)
  routine : ∃ (p : Place) (kind : RoutineKind) (routine : Routine Unit),
    h.visits ⟨p, .routine kind routine⟩ ∧ c.routine = (routine.resolve p.scoping kind).value ∧
      c.isInitializer = decide (kind = .initializer)
  encloses : ∀ node, r.code? = some node →
    Relation.ReflTransGen Node.Encloses (.body c.routine.body) node
  passed : Relation.ReflTransGen (Passes host v s') (.bodyOf d c vs s) r
  value : c.isInitializer = false → call host (d + 1) (.function i c) vs s = .ok v s'
  receiver : c.isInitializer = true → v = .nil ∧ ∃ m j k f,
    c = { m with environment := m.environment.extend f } ∧ h.Bound s' m (.object j k) f ∧
      call host (d + 1) (.function i c) vs s = .ok (.object j k) s'

namespace History

variable {h : History} {W : World}

/-- No statement of a program returns. -/
theorem Stands.not_returned {t : Stmt Address} {ts : List (Stmt Address)}
    (hs : h.Stands host W (.program d (t :: ts) s)) :
    execute host d (.outermost globalFrame) t s ≠ .ok (.returned v) s' := by
  intro hr
  obtain ⟨p, u, us, rfl, rfl, hat⟩ := hs.of_program
  have hv : h.visits ⟨p, .statement u⟩ := h.parts hat.visited List.mem_cons_self
  obtain ⟨kind, hkind, -⟩ := mayReturn_of_statement hv hr
  have hroutine := (h.sound hat.visited).place.routine
  rw [hat.outermost] at hroutine
  cases hkind.symm.trans hroutine

/-- The body of an initializer returns nothing but nil. -/
theorem Stands.eq_nil_of_returned (hs : h.Stands host W (.call (d + 1) (.function i c) vs s))
    (hc : c.isInitializer = true)
    (hr : (Activation.bodyOf d c vs s).result host = .ok (.outcome (.returned v)) s') : v = .nil := by
  obtain ⟨p, kind, r, hv, hroutine, hinit, -⟩ := hs.proper.1
  have hbody : h.visits ⟨p.inRoutine kind r, .body r.body⟩ := h.parts hv List.mem_cons_self
  have hresolved : c.routine.body = (Stmt.resolveList (p.inRoutine kind r).scoping r.body).value := by
    rw [hroutine]
    exact Routine.body_resolve _ _ _
  have hreturned := result_body.1 hr
  rw [hresolved] at hreturned
  -- What an initializer returns is nil, and the routine is an initializer by its kind.
  obtain ⟨kind', hkind', hnil⟩ := mayReturn_of_body mayReturn_of_statement hbody hreturned
  have hsame : some kind' = some kind :=
    hkind'.symm.trans (p.scoping.routine_inRoutine kind r.parameters).1
  refine hnil ((Option.some.inj hsame).trans ?_)
  exact of_decide_eq_true (hinit.symm.trans hc)

/-- A function whose body returns answers for the statement in it that does. -/
theorem Stands.answers {r : Activation} (hall : h.AllStand)
    (hs : h.Stands host W (.call (d + 1) (.function i c) vs s))
    (hc : Activation.Contains host (.bodyOf d c vs s) r)
    (hr : r.result host = .ok (.outcome (.returned v)) s') : h.Answers host r v s' d i c vs s := by
  obtain ⟨hpassed, hbody⟩ := hc.passes hr
  have hcall := call_of_returned (i := i) hbody
  obtain ⟨p, kind, routine, hv, hroutine, hinit, -⟩ := hs.proper.1
  refine ⟨hs.happens, ⟨p, kind, routine, hv, hroutine, hinit⟩, fun node hnode =>
    hc.encloses rfl hnode, hpassed, fun hplain => ?_, fun hinitializer => ?_⟩
  -- A plain function passes the value on; an initializer reads the receiver instead.
  · rw [hcall, if_neg (Bool.eq_false_iff.1 hplain)]
  · obtain ⟨m, j, k, f, hm, hbound, hread⟩ :=
      hs.reads_receiver hall hinitializer (hs.grows_body (result_body.1 hbody))
    refine ⟨hs.eq_nil_of_returned hinitializer hbody, m, j, k, f, hm, hbound, ?_⟩
    rw [hcall, if_pos hinitializer, hread]

end History

namespace Session

variable {time : Nat → Float} {limits : Limits} {ops : List Operation}

/-- Whatever is returned comes from a call of a function. -/
theorem exists_answers {r : Activation}
    (hhappens : (history (starting time limits) ops).happens host r) (hstage : 0 < r.stage)
    (hr : r.result host = .ok (.outcome (.returned v)) s') :
    ∃ d i c vs s, (history (starting time limits) ops).Answers host r v s' d i c vs s := by
  obtain ⟨session, p, hruns, rfl, hleads⟩ := hhappens
  have hall := allStand time limits ops
  rcases exists_contains hleads hstage with ⟨d, t, ts, s, hprogram, hc⟩ | ⟨d, i, c, vs, s, hcall, hc⟩
  · obtain ⟨W, hs⟩ := hall _ _ ⟨session, p, hruns, rfl, hprogram⟩
    exact absurd (result_statement.1 (hc.passes hr).2) hs.not_returned
  · obtain ⟨W, hs⟩ := hall _ _ ⟨session, p, hruns, rfl, hcall⟩
    exact ⟨d, i, c, vs, s, hs.answers hall hc hr⟩

/-- What a return statement returns ends the call of the function whose body it stands in, and no other,
and nothing more is run before that call ends. No statement of a program returns, and the body of an
initializer returns nothing but nil. -/
theorem return_ends_call (time : Nat → Float) (limits : Limits) (ops : List Operation) (host : Host) :
    (∀ d e line x s v s', (history (starting time limits) ops).happens host
        (.node d e (.statement (.return line x)) s) →
      Treewalk.execute host d e (.return line x) s = .ok (.returned v) s' →
      ∃ d' i c vs s₀, (history (starting time limits) ops).Answers host
        (.node d e (.statement (.return line x)) s) v s' d' i c vs s₀) ∧
    (∀ d t ts s v s', (history (starting time limits) ops).happens host (.program d (t :: ts) s) →
      Treewalk.execute host d (.outermost globalFrame) t s ≠ .ok (.returned v) s') ∧
    (∀ d i c vs s v s', (history (starting time limits) ops).happens host
        (.call (d + 1) (.function i c) vs s) → c.isInitializer = true →
      inOrder (Treewalk.execute host d (c.environment.extend s.frames.next)) c.routine.body
        (s.withFrame (parameterTable c.routine.parameters vs)) = .ok (.returned v) s' → v = .nil) := by
  refine ⟨fun d e line x s v s' hhappens hr => ?_, fun d t ts s v s' hhappens => ?_,
    fun d i c vs s v s' hhappens hc hr => ?_⟩
  -- A return is passed on by all that is around it up to the body of a call.
  · exact exists_answers hhappens Nat.zero_lt_one (result_statement.2 hr)
  · obtain ⟨W, hs⟩ := stands hhappens
    exact hs.not_returned
  · obtain ⟨W, hs⟩ := stands hhappens
    exact hs.eq_nil_of_returned hc (result_body.2 hr)

/-- A function that returns, and a call of it. -/
def returnInFunction : List (Stmt Unit) :=
  [.function ⟨"f", 1⟩ ⟨[], [.return 1 none]⟩, .expression (.call (.variable ⟨"f", 1⟩ ()) 1 [])]

/-- The text of `returnInFunction` is accepted. -/
theorem accepts_returnInFunction :
    (starting 0 .standard).Accepts "fn f()\x7breturn;\x7df();" returnInFunction := by
  refine ⟨by decide +kernel, ?_, by decide +kernel⟩
  have htokens : (Scan.ofText "fn f()\x7breturn;\x7df();" (starting 0 .standard).line).tokens =
      [Grammar.word .fn 1, Grammar.ident ⟨"f", 1⟩, Grammar.sym .leftParen 1, Grammar.sym .rightParen 1,
        Grammar.sym .leftBrace 1, Grammar.word .return_ 1, Grammar.sym .semicolon 1,
        Grammar.sym .rightBrace 1, Grammar.ident ⟨"f", 1⟩, Grammar.sym .leftParen 1,
        Grammar.sym .rightParen 1, Grammar.sym .semicolon 1] := by decide +kernel
  rw [htokens]
  -- The derivation from the inside to the outside.
  have hname : Grammar.Derives true 300 (.expression .call) [Grammar.ident ⟨"f", 1⟩]
      (.variable ⟨"f", 1⟩ ()) := .tighter (.atom rfl)
  have hcall : Grammar.Derives true 300 (.expression .assignment) _ (.call (.variable ⟨"f", 1⟩ ()) 1 []) :=
    .of_call (.callNothing (l := 1) hname)
  exact Grammar.reads_of_derives (.declarations
    (.function (.routine (d := 299) .none (.declarations (.statement (.return .noClause)) .noDeclaration)))
    (.declarations (.statement (.expression hcall)) .noDeclaration))

/-- The return statement of a function that is called ends the call. -/
theorem return_ends_call_returnInFunction : ∃ s s' d i c vs s₀,
    (history (starting 0 .standard) [.execute "fn f()\x7breturn;\x7df();"]).happens
        (starting 0 .standard).host (.node 448 ⟨1, [globalFrame]⟩ (.statement (.return 1 none)) s) ∧
      (history (starting 0 .standard) [.execute "fn f()\x7breturn;\x7df();"]).Answers
        (starting 0 .standard).host (.node 448 ⟨1, [globalFrame]⟩ (.statement (.return 1 none)) s)
        .nil s' d i c vs s₀ := by
  have hruns := (runs_execute accepts_returnInFunction).2 ⟨rfl, rfl⟩
  obtain ⟨s, hhappens⟩ : ∃ s,
      (history (starting 0 .standard) [.execute "fn f()\x7breturn;\x7df();"]).happens
        (starting 0 .standard).host (.node 448 ⟨1, [globalFrame]⟩ (.statement (.return 1 none)) s) :=
    ⟨_, _, _, hruns, rfl, .head (.laterOutermost rfl) <| .head .outermostExpression <|
      -- The function is called, and its only statement returns.
      .head (.called rfl rfl rfl) <| .head .routine <| .single .statement⟩
  obtain ⟨hreturns, -, -⟩ := return_ends_call 0 .standard _ (starting 0 .standard).host
  obtain ⟨d, i, c, vs, s₀, hanswers⟩ := hreturns _ _ _ _ _ _ _ hhappens rfl
  exact ⟨s, s, d, i, c, vs, s₀, hhappens, hanswers⟩

end Session

end Treewalk
