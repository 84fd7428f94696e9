import Treewalk.Proofs.Eval.Growth
import Treewalk.Proofs.Session.History

/-!
# The receiver

The frame in which a method is bound holds the instance through which it was fetched. It is the only
thing in the frame, and it stays there whatever is done with the session later (`Session.receiver_stays`).
So the receiver that is read in a method, or in a function inside it, is that instance, at whatever time
and from wherever the function is called.
-/

namespace Treewalk

open Eval Activation

namespace History

/-- A visit lies in a method of the nearest class around it. The method was fetched through a receiver,
and the frame that was made for it then is around the environment, where the scope of the class is around
the visit. -/
structure InFetchedMethod (h : History) (v : Visit) (e : Environment) (receiver : Value) (q : Place)
    (kind : RoutineKind) (r : Routine Unit) (k : Nat) : Prop where
  reaches : Visit.Reaches ⟨q, .routine kind r⟩ v
  openers : q.openers = v.place.openers.drop k
  method : ∃ c ms, q.openers.head? = some (.receiver c ms)
  nearest : ∀ o ∈ v.place.openers.take k, ∀ c ms, o ≠ .receiver c ms
  fetched : ∃ host m s₀, h.happens host (.bind m receiver s₀) ∧
    m.routine = (r.resolve q.scoping kind).value ∧ e.ancestor? k = some s₀.frames.next

/-- An instance is not among the values of a store and a call, nor was it shown to a native function. -/
structure IsNew (i : Nat) (s : Store) (vs : List Value) : Prop where
  frames : ∀ f n j c, s.frames.find? f n = some (.object j c) → j ≠ i
  fields : ∀ f n j c, s.fields.find? f n = some (.object j c) → j ≠ i
  shown : ∀ j c, .object j c ∈ s.shown → j ≠ i
  arguments : ∀ j c, .object j c ∈ vs → j ≠ i

namespace Stands

variable {h : History} {host : Host} {W : World} {d i : Nat} {e : Environment} {s s' : Store}
  {v receiver : Value} {vs : List Value} {m f : Closure} {c : Class}

/-- The frame of a bound method holds its receiver, and nothing else, as long as stores grow. -/
theorem find?_bound (hs : h.Stands host W (.bind m receiver s))
    (hgrows : ((Activation.bind m receiver s).final host).Grows s') (n : String) :
    s'.frames.find? s.frames.next n = some v ↔ n = thisName ∧ v = receiver := by
  have hfinal : ((Activation.bind m receiver s).final host).frames =
      s.frames.add (({} : Bindings Value).put thisName receiver) := by
    rw [final_bind]
    rfl
  obtain ⟨W', j, s₁, -, -, hbound, -⟩ := hs.proper.1.bind hs.good hs.proper.2.1 hs.happens
  -- At first the frame holds the receiver and nothing else.
  have hold : ∀ n v, ((Activation.bind m receiver s).final host).frames.find? s.frames.next n = some v ↔
      n = thisName ∧ v = receiver := by
    intro n v
    rw [hfinal, Frames.find?_add, if_pos rfl]
    exact find?_receiver
  -- A frame that holds a receiver does not change any more.
  have hsame : s'.frames.find? s.frames.next n = _ :=
    hgrows.receiver _ hbound.inner ⟨receiver, (hold _ _).2 ⟨rfl, rfl⟩⟩ n
  rw [hsame]
  exact hold n v

/-- The receiver at a node is the instance through which the method around the node was fetched. -/
theorem this (hall : h.AllStand) {line : Int} {a : Address}
    (hs : h.Stands host W (.node (d + 1) e (.expression (.this line a)) s)) :
    ∃ v i c q kind r k, h.visits v ∧ v.resolved = .expression (.this line a) ∧
      h.InFetchedMethod v e (.object i c) q kind r k ∧
      evaluate host (d + 1) e (.this line a) s = .ok (.object i c) s := by
  have hgood : h.Good host W s := hs.good
  obtain ⟨p, u, hu, hat⟩ := hs.exists_expression
  obtain ⟨mark, rfl, haddress⟩ := Expr.resolve_eq_this hu.symm
  have hsound := h.sound hat.visited
  obtain ⟨k, c, ms, hk, ho, hnearest⟩ := hsound.place.address_this hsound.inClass
  have ha := (haddress hsound.inClass).trans hk
  obtain ⟨g, σ, o, hg, -, ho', hl, -⟩ := hat.ancestor hk
  have hreceiver : o = .receiver c ms := Option.some.inj (ho'.symm.trans ho)
  obtain ⟨q, kind, r, m, receiver, hreaches, hlength, hr, hchain, hbound⟩ := hl.receiver c ms hreceiver
  obtain ⟨bindHost, s₀, hhappens, hframe⟩ := hbound.happened
  obtain ⟨W₀, hbind⟩ := hall _ _ hhappens
  obtain ⟨j, c', rfl⟩ := hbind.proper.2.2
  -- The scopes around the method are those from the scope of its class on.
  have hopeners : q.openers = p.openers.drop k := by
    have hsuffix : q.openers <:+ p.openers := hreaches.openers
    have hframes : e.chain.length = p.openers.length + 1 := hat.fits.length_frames
    rw [List.length_drop, hframes] at hlength
    have hlt : k < p.openers.length := (List.getElem?_eq_some_iff.1 ho).1
    rw [List.suffix_iff_eq_drop.1 hsuffix, hlength]
    congr 1
    omega
  refine ⟨⟨p, .expression (.this line mark)⟩, j, c', q, kind, r, k, hat.visited, congrArg _ hu.symm,
    ⟨hreaches, hopeners, ⟨c, ms, ?_⟩, hnearest, bindHost, m, s₀, hhappens, hr, hframe ▸ hg⟩, ?_⟩
  · rw [hopeners, List.head?_drop, ho]
  · show host.access.read e ⟨thisName, line⟩ a s = _
    rw [hgood.access, ha]
    show Eval.read e ⟨thisName, line⟩ (.scope k) s = _
    rw [read_scope, hg, Option.bind_some, hbound.held]

/-- A class that is called makes a new instance. -/
theorem newInstance (hs : h.Stands host W (.call (d + 1) (.class i c) vs s))
    (hr : call host (d + 1) (.class i c) vs s = .ok v s') :
    v = .object s.fields.next c ∧ s.fields.next < s'.fields.next ∧ IsNew s.fields.next s vs := by
  have hgood : h.Good host W s := hs.good
  -- Whatever is held by the store or by the arguments was made before, so its number is smaller.
  have hlt : ∀ {j k}, h.Genuine W s (.object j k) → j ≠ s.fields.next := fun ha => Nat.ne_of_lt ha.1
  have hnew : IsNew s.fields.next s vs :=
    ⟨fun f n j k ha => hlt (hgood.values f n _ ha), fun f n j k ha => hlt (hgood.fields f n _ ha),
      fun j k ha => hlt (hgood.shown _ ha), fun j k ha => hlt (hs.proper.2.1 _ ha)⟩
  have hnext : (s.fields.add {}).next = s.fields.next + 1 := Frames.next_add _ _
  unfold call at hr
  obtain ⟨receiver, s₁, hobject, hr⟩ := bind_eq_ok.1 hr
  obtain ⟨-, -, rfl⟩ := later_newObject hgood (fun _ _ hm => hs.method_of_class hm) hobject
  have hadded : s₁.fields.next = s.fields.next + 1 := by
    cases hobject
    exact hnext
  cases hm : c.methods.find? initializerName with
  | none =>
    simp only [hm] at hr
    cases hr
    exact ⟨rfl, hadded ▸ Nat.lt_succ_self _, hnew⟩
  | some m =>
    simp only [hm] at hr
    obtain ⟨f, s₂, hbind, hr⟩ := bind_eq_ok.1 hr
    obtain ⟨w, s₃, hcall, hr⟩ := bind_eq_ok.1 hr
    cases hr
    -- The numbers of instances only grow while the initializer is bound and called.
    have hbound := hs.grows_next (.initializerBound hobject hm)
    have hcalled := hs.grows_call (.initializerCalled hobject hm hbind)
    rw [final_bind, leaves_of_ok hbind] at hbound
    rw [leaves_of_ok hcall] at hcalled
    have hgrows := hbound.trans hcalled
    exact ⟨rfl, Nat.lt_of_lt_of_le (hadded ▸ Nat.lt_succ_self _) hgrows.instances, hnew⟩

/-- An initializer gives back the instance through which it was fetched. -/
theorem initializer (hall : h.AllStand)
    (hs : h.Stands host W (.call (d + 1) (.function i f) vs s)) (hf : f.isInitializer = true)
    (hr : call host (d + 1) (.function i f) vs s = .ok v s') :
    ∃ bindHost m j c s₀, h.happens bindHost (.bind m (.object j c) s₀) ∧
      f = { m with environment := m.environment.extend s₀.frames.next } ∧ v = .object j c := by
  unfold call at hr
  obtain ⟨e, s₁, he, hr⟩ := bind_eq_ok.1 hr
  cases he
  obtain ⟨outcome, s₂, hbody, hr⟩ := bind_eq_ok.1 hr
  rw [if_pos hf] at hr
  -- After the body the receiver is read where it was bound, and its frame still holds it.
  obtain ⟨m, j, c, g, hm, hbound, hread⟩ := hs.reads_receiver hall hf (hs.grows_body hbody)
  obtain ⟨bindHost, s₀, hhappens, rfl⟩ := hbound.happened
  rw [hread] at hr
  cases hr
  exact ⟨bindHost, m, j, c, s₀, hhappens, hm, rfl⟩

end Stands

end History

namespace Session

/-- One state of a session comes before another: an activation leads to another one, comes to its end, or
comes to its end after one that it led to; or an operation is done. -/
inductive Next (start : Session) (ops : List Operation) : Store → Store → Prop
  | begins {host : Host} {a b : Activation} (ha : (history start ops).happens host a)
    (hab : Calls host a b) : Next start ops a.store b.store
  | runs {host : Host} {a : Activation} (ha : (history start ops).happens host a) :
    Next start ops a.store (a.final host)
  | ends {host : Host} {a b : Activation} (ha : (history start ops).happens host a)
    (hab : Calls host a b) : Next start ops (b.final host) (a.final host)
  | done {past : List Operation} {op : Operation} (hop : past ++ [op] <+: ops) :
    Next start ops (start.performAll past).store (start.performAll (past ++ [op])).store

/-- The states of a session in the order of time. A unit that runs a program leaves the store that its
first activation leaves (`final_rootActivation`). -/
abbrev Precedes (start : Session) (ops : List Operation) : Store → Store → Prop :=
  Relation.ReflTransGen (Next start ops)

/-- A unit leaves the store that the run of its program leaves. -/
theorem final_rootActivation {s : Session} {op : Operation} {text : String} {p : List (Stmt Unit)}
    (htext : op.text? = some text) (haccepts : s.Accepts text p) :
    (s.rootActivation p).final s.host = (s.perform op).store := by
  have hrun := execute_of_run haccepts
  unfold rootActivation
  rw [perform_of_text htext, final_program]
  unfold leaves
  cases hr : runProgram s.host s.limits.run (resolveProgram s.limits.tree p).value s.store with
  | ok v store =>
    rw [hr] at hrun
    obtain ⟨log, line, heq⟩ := hrun
    rw [heq]
  | error stop store =>
    rw [hr] at hrun
    obtain ⟨log, line, heq⟩ := hrun
    rw [heq]

variable {time : Nat → Float} {limits : Limits} {ops past : List Operation} {op : Operation} {s s' : Store}

/-- The store of a session grows in every operation. -/
theorem grows_performAll (hop : past ++ [op] <+: ops) : ((starting time limits).performAll past).store.Grows
      ((starting time limits).performAll (past ++ [op])).store := by
  obtain ⟨W, hr⟩ := recorded time limits ((List.prefix_append past [op]).trans hop)
  rw [performAll_append]
  rcases perform_cases ((starting time limits).performAll past) op with
    ⟨text, p, htext, haccepts, -⟩ | ⟨name, arity, native, rfl⟩ | ⟨hstore, -⟩
  · have hruns := stands_root ⟨past, op, text, hop, htext, rfl, haccepts⟩ hr.good
    rw [← final_rootActivation htext haccepts]
    exact hruns.grows
  · exact .withName hr.good.global_lt (absurd rfl) _
  · rw [hstore]
    exact .refl _

/-- Later stores have grown. -/
theorem grows_of_precedes (h : Precedes (starting time limits) ops s s') : s.Grows s' := by
  induction h with
  | refl => exact .refl s
  | tail _ hnext ih =>
    refine ih.trans ?_
    -- Each of the four ways to come later is one in which the store grows.
    cases hnext with
    | begins ha hab =>
      obtain ⟨W, hs⟩ := stands ha
      obtain ⟨-, -, hgrows, -⟩ := hs.next hab
      exact hgrows
    | runs ha =>
      obtain ⟨W, hs⟩ := stands ha
      exact hs.grows
    | ends ha hab =>
      obtain ⟨W, hs⟩ := stands ha
      exact hs.ends hab
    | done hop => exact grows_performAll hop

/-- The frame of a bound method holds the receiver and nothing else at all later times, and the receiver
that is read at a node is the instance through which the method around the node was fetched. A class that
is called makes an instance that is not among those that were made before, and an initializer that was
fetched gives back the instance through which it was fetched. -/
theorem receiver_stays (time : Nat → Float) (limits : Limits) (ops : List Operation) (host : Host) :
    (∀ m receiver s₀ s, (history (starting time limits) ops).happens host (.bind m receiver s₀) →
      Precedes (starting time limits) ops ((Activation.bind m receiver s₀).final host) s →
      ∀ n v, s.frames.find? s₀.frames.next n = some v ↔ n = thisName ∧ v = receiver) ∧
    (∀ d e line a s, (history (starting time limits) ops).happens host
        (.node (d + 1) e (.expression (.this line a)) s) →
      ∃ v i c q kind r k, (history (starting time limits) ops).visits v ∧
        v.resolved = .expression (.this line a) ∧
        (history (starting time limits) ops).InFetchedMethod v e (.object i c) q kind r k ∧
        evaluate host (d + 1) e (.this line a) s = .ok (.object i c) s) ∧
    (∀ d i c vs s v s', (history (starting time limits) ops).happens host
        (.call (d + 1) (.class i c) vs s) →
      Treewalk.call host (d + 1) (.class i c) vs s = .ok v s' →
      v = .object s.fields.next c ∧ History.IsNew s.fields.next s vs ∧
        ∀ host₀ d₀ i₀ c₀ vs₀ s₀ v₀ s₁, (history (starting time limits) ops).happens host₀
            (.call (d₀ + 1) (.class i₀ c₀) vs₀ s₀) →
          Treewalk.call host₀ (d₀ + 1) (.class i₀ c₀) vs₀ s₀ = .ok v₀ s₁ →
          Precedes (starting time limits) ops s₁ s → ∀ k, v₀ ≠ .object s.fields.next k) ∧
    (∀ d i f vs s v s', (history (starting time limits) ops).happens host
        (.call (d + 1) (.function i f) vs s) → f.isInitializer = true →
      Treewalk.call host (d + 1) (.function i f) vs s = .ok v s' →
      ∃ bindHost m j c s₀,
        (history (starting time limits) ops).happens bindHost (.bind m (.object j c) s₀) ∧
          f = { m with environment := m.environment.extend s₀.frames.next } ∧ v = .object j c) := by
  have hall := allStand time limits ops
  refine ⟨fun m receiver s₀ s hhappens hlater n v => ?_, fun d e line a s hhappens => ?_,
    fun d i c vs s v s' hhappens hr => ?_, fun d i f vs s v s' hhappens hf hr => ?_⟩
  · obtain ⟨W, hs⟩ := hall _ _ hhappens
    exact hs.find?_bound (grows_of_precedes hlater) n
  · obtain ⟨W, hs⟩ := hall _ _ hhappens
    exact hs.this hall
  · obtain ⟨W, hs⟩ := hall _ _ hhappens
    obtain ⟨hv, -, hnew⟩ := hs.newInstance hr
    refine ⟨hv, hnew, ?_⟩
    -- A receiver that was made before has a number below that of the new one.
    rintro host₀ d₀ i₀ c₀ vs₀ s₀ v₀ s₁ hhappens₀ hr₀ hlater k rfl
    obtain ⟨W₀, hs₀⟩ := hall _ _ hhappens₀
    obtain ⟨hv₀, hlt, -⟩ := hs₀.newInstance hr₀
    have hle := (grows_of_precedes hlater).instances
    have hsame : s.fields.next = s₀.fields.next := (Value.object.inj hv₀).1
    exact absurd hsame (Nat.ne_of_gt (Nat.lt_of_lt_of_le hlt hle))
  · obtain ⟨W, hs⟩ := hall _ _ hhappens
    exact hs.initializer hall hf hr

/-- A method that reads its receiver, and a call of it. -/
def readInMethod : List (Stmt Unit) :=
  [.class ⟨"A", 1⟩ [(⟨"m", 1⟩, ⟨[], [.expression (.this 1 ())]⟩)],
    .expression (.call (.get (.call (.variable ⟨"A", 1⟩ ()) 1 []) ⟨"m", 1⟩) 1 [])]

/-- The text of `readInMethod` is accepted. -/
theorem accepts_readInMethod :
    (starting 0 .standard).Accepts "class A\x7bm()\x7bthis;\x7d\x7dA().m();" readInMethod := by
  refine ⟨by decide +kernel, ?_, by decide +kernel⟩
  -- The tokens first, then the derivation from the inside to the outside.
  have htokens :
      (Scan.ofText "class A\x7bm()\x7bthis;\x7d\x7dA().m();" (starting 0 .standard).line).tokens =
        [Grammar.word .class_ 1, Grammar.ident ⟨"A", 1⟩, Grammar.sym .leftBrace 1,
          Grammar.ident ⟨"m", 1⟩, Grammar.sym .leftParen 1, Grammar.sym .rightParen 1,
          Grammar.sym .leftBrace 1, Grammar.word .this 1, Grammar.sym .semicolon 1,
          Grammar.sym .rightBrace 1, Grammar.sym .rightBrace 1, Grammar.ident ⟨"A", 1⟩,
          Grammar.sym .leftParen 1, Grammar.sym .rightParen 1, Grammar.sym .dot 1,
          Grammar.ident ⟨"m", 1⟩, Grammar.sym .leftParen 1, Grammar.sym .rightParen 1,
          Grammar.sym .semicolon 1] := by decide +kernel
  rw [htokens]
  have hmethod : Grammar.Derives true 300 .routine
      [Grammar.sym .leftParen 1, Grammar.sym .rightParen 1, Grammar.sym .leftBrace 1,
        Grammar.word .this 1, Grammar.sym .semicolon 1, Grammar.sym .rightBrace 1]
      (.mk [] [.expression (.this 1 ())]) :=
    .routine (d := 299) .none
      (.declarations (.statement (.expression (l := 1) (.of_atom (t := Grammar.word .this 1) rfl)))
        .noDeclaration)
  have hname : Grammar.Derives true 300 (.expression .call) [Grammar.ident ⟨"A", 1⟩]
      (.variable ⟨"A", 1⟩ ()) := .tighter (.atom rfl)
  have hcall : Grammar.Derives true 300 (.expression .assignment) _
      (.call (.get (.call (.variable ⟨"A", 1⟩ ()) 1 []) ⟨"m", 1⟩) 1 []) :=
    .of_call (.callNothing (l := 1) (.get (l := 1) (.callNothing (l := 1) hname)))
  exact Grammar.reads_of_derives (.declarations (.class (.method hmethod .noMethod))
    (.declarations (.statement (.expression hcall)) .noDeclaration))

/-- In a method that is called, the receiver is the instance through which it was fetched. -/
theorem receiver_stays_readInMethod : ∃ s v i c q kind r k,
    (history (starting 0 .standard) [.execute "class A\x7bm()\x7bthis;\x7d\x7dA().m();"]).happens
        (starting 0 .standard).host (.node 447 ⟨2, [1, globalFrame]⟩ (.expression (.this 1 (.scope 1))) s) ∧
      (history (starting 0 .standard)
        [.execute "class A\x7bm()\x7bthis;\x7d\x7dA().m();"]).InFetchedMethod v ⟨2, [1, globalFrame]⟩
          (.object i c) q kind r k ∧
      evaluate (starting 0 .standard).host 447 ⟨2, [1, globalFrame]⟩ (.this 1 (.scope 1)) s =
        .ok (.object i c) s := by
  have hruns := (runs_execute accepts_readInMethod).2 ⟨rfl, rfl⟩
  obtain ⟨s, hhappens⟩ : ∃ s, (history (starting 0 .standard)
      [.execute "class A\x7bm()\x7bthis;\x7d\x7dA().m();"]).happens (starting 0 .standard).host
        (.node 447 ⟨2, [1, globalFrame]⟩ (.expression (.this 1 (.scope 1))) s) :=
    -- The method is called, and its statement evaluates `this`.
    ⟨_, _, _, hruns, rfl, .head (.laterOutermost rfl) <| .head .outermostExpression <|
      .head (.called rfl rfl rfl) <| .head .routine <| .head .statement <| .single .expression⟩
  obtain ⟨-, hthis, -⟩ := receiver_stays 0 .standard _ (starting 0 .standard).host
  obtain ⟨v, i, c, q, kind, r, k, -, -, hfetched, hr⟩ := hthis _ _ _ _ _ hhappens
  exact ⟨s, v, i, c, q, kind, r, k, hhappens, hfetched, hr⟩

end Session

end Treewalk
