import Treewalk.Proofs.Eval.Natives

/-!
# What a run keeps

Every activation that a standing activation leads to stands as well (`Stands.next`), and when it comes
to its end the store is still good and the result is genuine (`keeps`). The two are proved together, by
induction on the depth: an activation that comes after another one begins on the store that the other
one leaves.
-/

namespace Treewalk

open Eval

namespace History

/-- Standing activations at a depth leave good stores behind and give genuine results. -/
structure Keeps (h : History) (host : Host) (d : Nat) : Prop where
  evaluate : ∀ {W e x s}, h.Stands host W (.node d e (.expression x) s) →
    h.Leads host W s noNames h.Genuine (evaluate host d e x s)
  execute : ∀ {W e t s}, h.Stands host W (.node d e (.statement t) s) →
    h.Leads host W s (declaredOn e (.statement t)) (h.Executed e (.statement t))
      (execute host d e t s)
  call : ∀ {W f vs s}, h.Stands host W (.call d f vs s) →
    h.Leads host W s noNames h.Genuine (call host d f vs s)

variable {h : History} {host : Host} {W W' W₁ W₂ : World} {s s' s₁ s₂ : Store} {v w : Visit}
  {e : Environment} {d : Nat} {fresh fresh' : FrameId → String → Prop}

/-! ## Results -/

/-- The frame in which code runs was made. -/
theorem At.own_lt (hgood : h.Good host W s) (hat : h.At W s v e) : e.own < s.frames.next :=
  frames_lt hgood hat.fits _ List.mem_cons_self

/-- The own frame of a declaration is the global frame, or that of what declares its name. It holds no
receiver. -/
theorem At.own (hgood : h.Good host W s) (hat : h.At W s v e) {n : String} (hn : n ∈ v.node.declared) :
    (e.own ≠ globalFrame → ¬s.Binds e.own thisName) ∧
      ∀ o, W[e.own]? = some (some o) → n ∈ o.declared := by
  have hsound := h.sound hat.visited
  have hname : IsName n := hsound.worded.names n (v.node.declared_subset_names hn)
  have hown := hsound.own
  have hscopes := hsound.place.scopes
  have hfits := hat.fits
  unfold Fits at hfits
  unfold Environment.chain at hfits
  -- The frames are matched with the openers and the scopes from the inside, so the first of each decides:
  -- it is the global frame, or the frame of the opener that declares the name.
  generalize v.place.scoping.scopes = σs at hfits hscopes
  generalize v.place.openers = os at hfits hown hscopes
  generalize e.enclosing = fs at hfits
  generalize e.own = f at hfits
  cases hfits with
  | global =>
    refine ⟨absurd rfl, fun o ho => ?_⟩
    rw [hgood.global] at ho
    cases ho
  | inner hl _ =>
    have hdeclared := hown _ rfl n hn
    cases hscopes with
    | cons hσ _ =>
      refine ⟨fun _ => hl.not_receiver hgood hσ hdeclared hname.ne_thisName, fun o ho => ?_⟩
      rw [hl.owner] at ho
      obtain rfl := Option.some.inj (Option.some.inj ho)
      exact hdeclared

/-- A declaration binds its name on its own frame, where the name belongs. -/
theorem At.define (hgood : h.Good host W s) (hat : h.At W s v e) {n : String} {a : Value}
    (hn : n ∈ v.node.declared)
    (ha : s.Grows (s.withName e.own n a) → h.Genuine W (s.withName e.own n a) a) :
    h.Later host W s W (s.withName e.own n a) (declaredOn e v.node) := by
  obtain ⟨hthis, hdeclared⟩ := hat.own hgood hn
  have hlt := hat.own_lt hgood
  exact .withName hgood hlt hthis (ha (.withName hlt hthis a)) hdeclared fun _ => .inr ⟨rfl, hn⟩

/-- A declaration comes to its end with the value of its name. -/
theorem Stands.define {t : Stmt Address} {n : String} {a : Value}
    (hs : h.Stands host W (.node d e (.statement t) s)) (ht : t.declared = [n])
    (hl : h.Later host W s W₁ s₁ noNames)
    (ha : ∀ s₂, s₁.Grows s₂ → s₂.Binds e.own n → h.Genuine W₁ s₂ a) :
    h.Leads host W s (declaredOn e (.statement t)) (h.Executed e (.statement t))
      ((do Eval.define e.own n a; return .normal : Eval Outcome) s₁) := by
  obtain ⟨p, u, rfl, hat⟩ := hs.exists_statement
  -- The statement is that of a visit, in whose scope the name is declared.
  have hat₁ := hat.later hs.good hl
  have hn : n ∈ u.declared := by
    rw [← u.declared_resolve p.scoping, ht]
    exact List.mem_singleton_self n
  have hbinds : (s₁.withName e.own n a).Binds e.own n :=
    (Store.binds_withName (hat₁.own_lt hl.good)).2 (.inl ⟨rfl, rfl⟩)
  -- The value may be a function that is made for this frame, so it is genuine once the name is bound.
  have hdefined : h.Later host W s W₁ (s₁.withName e.own n a) (declaredOn e (.statement u)) :=
    (hl.weaken fun _ _ hm => hm.elim).trans (hat₁.define hl.good hn fun hgrows => ha _ hgrows hbinds)
  refine ⟨W₁, hdefined.weaken fun f m hm => ⟨hm.1, ?_⟩, .normal fun m hm => ?_⟩
  · show m ∈ (u.resolve p.scoping).value.declared
    rw [u.declared_resolve]
    exact hm.2
  · have hmem : m ∈ (u.resolve p.scoping).value.declared := hm
    rw [ht] at hmem
    rw [List.mem_singleton.1 hmem]
    exact hbinds

/-- What is printed and which identities are given out does not matter. -/
theorem Later.then_frames (hl : h.Later host W s W₁ s₁ fresh) (hframes : s₂.frames = s₁.frames)
    (hfields : s₂.fields = s₁.fields) (hshown : s₂.shown = s₁.shown) :
    h.Later host W s W₁ s₂ fresh := by
  refine hl.trans (.of_frames hl.good hframes (Nat.le_of_eq (by rw [hfields])) ?_ ?_)
  · rw [hfields]
    exact hl.good.fields
  · rw [hshown]
    exact hl.good.shown

namespace Keeps

/-- Arguments are genuine. -/
theorem arguments (hd : h.Keeps host d) {xs : List (Expr Address)}
    (hs : h.Stands host W (.node d e (.arguments xs) s)) :
    h.Leads host W s noNames (fun W' s' vs => ∀ a ∈ vs, h.Genuine W' s' a)
      (xs.mapM (Treewalk.evaluate host d e) s) := by
  induction xs generalizing W s with
  | nil => exact .pure hs.good fun a ha => by cases ha
  | cons x xs ih =>
    rw [List.mapM_cons]
    have hx := hd.evaluate (hs.of_arguments .argument (.refl hs.good))
    refine hx.bind fun v s₁ hv => ?_
    obtain ⟨W₁, hl₁, hv₁⟩ := hx.ok hv
    -- The value of the first argument stays genuine while the others are evaluated.
    have hxs := ih (hs.of_arguments (.laterArguments hv) hl₁)
    refine .after hl₁ (hxs.bind fun vs s₂ hvs => ?_)
    obtain ⟨W₂, hl₂, hvs₂⟩ := hxs.ok hvs
    refine ⟨W₂, hl₂, fun a ha => ?_⟩
    rcases List.mem_cons.1 ha with rfl | ha
    · exact hv₁.mono hl₂.worlds hl₂.grows
    · exact hvs₂ a ha

/-- The statements of a body. -/
theorem body (hd : h.Keeps host d) {ts : List (Stmt Address)}
    (hs : h.Stands host W (.node d e (.body ts) s)) :
    h.Leads host W s (declaredOn e (.body ts))
      (fun W' s' outcome => ∀ v, outcome = .returned v → h.Genuine W' s' v)
      (inOrder (Treewalk.execute host d e) ts s) := by
  induction ts generalizing W s with
  | nil => exact .pure hs.good fun v hv => by cases hv
  | cons t ts ih =>
    have ht := hd.execute hs.of_body
    -- What the body declares the first statement or a later one does.
    have hfirst : ∀ f n, declaredOn e (.statement t) f n → declaredOn e (.body (t :: ts)) f n :=
      fun f n hn => ⟨hn.1, List.mem_append_left _ hn.2⟩
    have hlater : ∀ f n, declaredOn e (.body ts) f n → declaredOn e (.body (t :: ts)) f n :=
      fun f n hn => ⟨hn.1, List.mem_append_right _ hn.2⟩
    unfold inOrder
    refine (ht.weaken hfirst).bind fun outcome s₁ houtcome => ?_
    obtain ⟨W₁, hl₁, hx⟩ := ht.ok houtcome
    cases outcome with
    | normal => exact .after (hl₁.weaken hfirst) ((ih (hs.of_later houtcome hl₁ hx)).weaken hlater)
    | returned v => exact ⟨W₁, hl₁.weaken hfirst, fun v hv => hx.1 v hv⟩

/-- The value of a property is genuine. -/
theorem property (hd : h.Keeps host d) {x : Expr Address} {n : Name} {a : Value}
    (hs : h.Stands host W (.node (d + 1) e (.expression (.get x n)) s))
    (hx : Treewalk.evaluate host d e x s = .ok a s₁) : ∃ W₁, h.Later host W s W₁ s₁ noNames ∧
      h.Leads host W₁ s₁ noNames h.Genuine (Eval.property a n s₁) := by
  have hname : IsName n.text := hs.isName (List.mem_singleton_self _)
  obtain ⟨W₁, hl, ha⟩ := (hd.evaluate (hs.of_expression .object (.refl hs.good))).ok hx
  refine ⟨W₁, hl, leads_property hl.good ha (.inl hname.not_mem_lineFeed) ?_⟩
  rintro i c m rfl hfield hm
  exact h.calls hs.happens (.bound hx hfield hm)

/-- A value is assigned where the name belongs. -/
theorem assign (hd : h.Keeps host d) {n : Name} {address : Address} {x : Expr Address} {a : Value}
    (hs : h.Stands host W (.node (d + 1) e (.expression (.assign n address x)) s))
    (hx : Treewalk.evaluate host d e x s = .ok a s₁) : ∃ W₁, h.Later host W s W₁ s₁ noNames ∧
      h.Genuine W₁ s₁ a ∧
      h.Leads host W₁ s₁ noNames (fun _ _ _ => True) (host.access.write e n address a s₁) := by
  have hgood : h.Good host W s := hs.good
  -- The value is genuine, and the name that it is assigned to is a use of the visited node.
  obtain ⟨W₁, hl, ha⟩ := (hd.evaluate (hs.of_expression .assigned (.refl hgood))).ok hx
  obtain ⟨p, u, hu, hat⟩ := hs.exists_expression
  obtain ⟨m, mark, y, rfl, rfl, rfl, rfl⟩ := Expr.resolve_eq_assign hu.symm
  have hmentions : Visit.Mentions ⟨p, .expression (.assign n mark y)⟩ n.text := ⟨_, .refl, rfl⟩
  have hname : IsName n.text := hs.isName (List.mem_singleton_self _)
  refine ⟨W₁, hl, ha, ?_⟩
  rw [hgood.access]
  exact leads_write hl.good (hat.later hgood hl) hmentions hname ha

end Keeps

/-- What an operator makes holds no functions. -/
theorem leads_operator (hl : h.Later host W s W₁ s₁ fresh) {line : Int}
    {r : Except OperandFault Value} (hr : ∀ v, r = .ok v → h.Genuine W₁ s₁ v) :
    h.Leads host W s fresh h.Genuine (operator line r s₁) := by
  cases r with
  | ok v => exact ⟨W₁, hl, hr v rfl⟩
  | error f => exact ⟨.inl (Fault.operands_oneLine f), W₁, hl⟩

/-- What a prefix operator gives is no function, hence genuine. -/
theorem genuine_unary {op : UnaryOp} {a b : Value} (hb : op.apply a = .ok b) : h.Genuine W s b := by
  obtain ⟨l, rfl⟩ := UnaryOp.exists_literal hb
  exact genuine_literal l

/-- What an infix operator gives is no function, hence genuine. -/
theorem genuine_binary {op : BinaryOp} {a b c : Value} (hc : op.apply a b = .ok c) :
    h.Genuine W s c := by
  obtain ⟨l, rfl⟩ := BinaryOp.exists_literal hc
  exact genuine_literal l

/-- A check lets a call pass only with as many arguments as the value takes. -/
theorem checkCall_ok {line : Int} {f : Value} {count : Nat} {u : Unit}
    (hc : checkCall line f count s = .ok u s₁) : f.arity? = some count ∧ s₁ = s := by
  unfold checkCall at hc
  cases harity : f.arity? with
  | none =>
    rw [harity] at hc
    cases hc
  | some expected =>
    rw [harity] at hc
    by_cases hcount : count = expected
    · simp only [hcount, if_true] at hc
      cases hc
      exact ⟨hcount ▸ rfl, rfl⟩
    · simp only [hcount, if_false] at hc
      cases hc

/-- A check of a call changes nothing. -/
theorem leads_checkCall (hgood : h.Good host W s) (line : Int) (f : Value) (count : Nat) :
    h.Leads host W s fresh (fun _ _ _ => True) (checkCall line f count s) := by
  unfold checkCall
  cases f.arity? with
  | none => exact .throw hgood (.inl (by decide))
  | some expected =>
    by_cases hcount : count = expected
    · simp only [hcount, if_true]
      exact .pure hgood trivial
    · simp only [hcount, if_false]
      exact .throw hgood (.inl (Fault.wrongCount_oneLine _ _))

/-- The line of a call changes nothing but the stop of a call that is nested too deeply. -/
theorem Leads.onLine {good : World → Store → Value → Prop} {line : Int} {x : Eval Value}
    (hx : h.Leads host W s fresh good (x s₁)) : h.Leads host W s fresh good (onLine line x s₁) := by
  unfold Eval.onLine
  split
  · next hr =>
    rw [hr] at hx
    exact hx
  · exact hx

namespace Keeps

/-- Expressions lead from good stores to good stores, if what is less deep does. -/
theorem evaluate_succ (hd : h.Keeps host d) {x : Expr Address}
    (hs : h.Stands host W (.node (d + 1) e (.expression x) s)) :
    h.Leads host W s noNames h.Genuine (Treewalk.evaluate host (d + 1) e x s) := by
  have hgood : h.Good host W s := hs.good
  have hnow : h.Later host W s W s noNames := .refl hgood
  -- Each part stands on the store that the parts before it leave, with the world that they lead to.
  unfold Treewalk.evaluate
  cases x with
  | literal value => exact .pure hgood (genuine_literal value)
  | grouping x => exact hd.evaluate (hs.of_expression .grouping hnow)
  | unary op line x =>
    have hx := hd.evaluate (hs.of_expression .unary hnow)
    refine hx.bind fun v s₁ hv => ?_
    obtain ⟨W₁, hl₁, -⟩ := hx.ok hv
    exact leads_operator hl₁ fun _ => genuine_unary
  | binary op line x y =>
    have hx := hd.evaluate (hs.of_expression .left hnow)
    refine hx.bind fun v s₁ hv => ?_
    obtain ⟨W₁, hl₁, -⟩ := hx.ok hv
    have hy := Leads.after hl₁ (hd.evaluate (hs.of_expression (.right hv) hl₁))
    refine hy.bind fun w s₂ hw => ?_
    obtain ⟨W₂, hl₂, -⟩ := hy.ok hw
    exact leads_operator hl₂ fun _ => genuine_binary
  | logical op x y =>
    have hx := hd.evaluate (hs.of_expression .first hnow)
    refine hx.bind fun v s₁ hv => ?_
    obtain ⟨W₁, hl₁, hv₁⟩ := hx.ok hv
    cases hdecided : op.isDecided v with
    | true => exact ⟨W₁, hl₁, hv₁⟩
    | false => exact .after hl₁ (hd.evaluate (hs.of_expression (.second hv hdecided) hl₁))
  | «variable» n a =>
    have hname : IsName n.text := hs.isName (List.mem_singleton_self _)
    rw [hgood.access]
    exact leads_read hgood hname.not_mem_lineFeed a
  | assign n a x =>
    have hx := hd.evaluate (hs.of_expression .assigned hnow)
    refine hx.bind fun v s₁ hv => ?_
    obtain ⟨W₁, hl₁, hv₁, hwrite⟩ := hd.assign hs hv
    refine .after hl₁ (hwrite.bind fun _ s₂ hw => ?_)
    obtain ⟨W₂, hl₂, -⟩ := hwrite.ok hw
    exact ⟨W₂, hl₂, hv₁.mono hl₂.worlds hl₂.grows⟩
  | call x line xs =>
    have hx := hd.evaluate (hs.of_expression .callee hnow)
    refine hx.bind fun f s₁ hf => ?_
    obtain ⟨W₁, hl₁, hf₁⟩ := hx.ok hf
    have hxs := hd.arguments (hs.of_expression (.arguments hf) hl₁)
    refine .after hl₁ (hxs.bind fun vs s₂ hvs => ?_)
    obtain ⟨W₂, hl₂, hvs₂⟩ := hxs.ok hvs
    refine .after hl₂ ((leads_checkCall hl₂.good line f vs.length).bind fun _ s₃ hcheck => ?_)
    obtain ⟨harity, rfl⟩ := checkCall_ok hcheck
    have hcall : h.Stands host W₂ (.call d f vs s₃) :=
      ⟨h.calls hs.happens (.called hf hvs hcheck), hl₂.good, hf₁.mono hl₂.worlds hl₂.grows, hvs₂,
        harity⟩
    exact (hd.call hcall).onLine
  | get x n =>
    have hx := hd.evaluate (hs.of_expression .object hnow)
    refine hx.bind fun v s₁ hv => ?_
    obtain ⟨W₁, hl₁, hproperty⟩ := hd.property hs hv
    exact .after hl₁ hproperty
  | set x n y =>
    have hx := hd.evaluate (hs.of_expression .target hnow)
    refine hx.bind fun v s₁ hv => ?_
    obtain ⟨W₁, hl₁, hv₁⟩ := hx.ok hv
    cases v with
    | object i c =>
      have hy := Leads.after hl₁ (hd.evaluate (hs.of_expression (.stored hv) hl₁))
      refine hy.bind fun w s₂ hw => ?_
      obtain ⟨W₂, hl₂, hw₂⟩ := hy.ok hw
      have hset := later_setField hl₂.good hw₂ i n.text
      exact ⟨W₂, hl₂.trans hset, hw₂.mono hset.worlds hset.grows⟩
    | _ => exact ⟨.inl (by decide), W₁, hl₁⟩
  | this line a =>
    have hname : '\n' ∉ thisName.toList := by decide
    rw [hgood.access]
    exact leads_read hgood hname a
  | lambda r =>
    obtain ⟨p, u, hu, hat⟩ := hs.exists_expression
    obtain ⟨r, rfl, rfl⟩ := Expr.resolve_eq_lambda hu.symm
    have hl : h.Later host W s W { s with nextIdentity := s.nextIdentity + 1 } noNames :=
      .of_frames hgood rfl (Nat.le_refl _) hgood.fields hgood.shown
    exact ⟨W, hl, hat.lambda.mono List.prefix_rfl hl.grows⟩

/-- A statement that declares nothing binds no names on its frame. -/
theorem nested (hd : h.Keeps host d) {t : Stmt Address}
    (hs : h.Stands host W₁ (.node d e (.statement t) s₁)) (hnone : t.declared = [])
    (hl : h.Later host W s W₁ s₁ noNames) :
    h.Leads host W s noNames (fun W' s' outcome => ∀ v, outcome = .returned v → h.Genuine W' s' v)
      (Treewalk.execute host d e t s₁) := by
  -- A branch or the body of a loop declares nothing, so it binds no names in the frames of before.
  have hnames : ∀ f n, declaredOn e (.statement t) f n → noNames f n := fun f n hn => by
    have hmem : n ∈ t.declared := hn.2
    rw [hnone] at hmem
    cases hmem
  have ht := (hd.execute hs).weaken hnames
  refine .after hl ?_
  cases hr : Treewalk.execute host d e t s₁ with
  | error stop s' =>
    rw [hr] at ht
    exact ht
  | ok outcome s' =>
    obtain ⟨W', hl', hx⟩ := ht.ok hr
    exact ⟨W', hl', hx.1⟩

/-- One round of a loop. -/
theorem oneRound (hd : h.Keeps host d) {x : Expr Address} {b : Stmt Address} {rounds : Nat}
    (hs : h.Stands host W (.loop (rounds + 1) d e x b s)) :
    h.Leads host W s noNames (fun W' s' r => ∀ v, r = some (.returned v) → h.Genuine W' s' v)
      (round (Treewalk.evaluate host d e x) (Treewalk.execute host d e b) s) := by
  have hx := hd.evaluate (hs.of_loop .loopCondition (.refl hs.good))
  refine hx.bind fun v s₁ hv => ?_
  obtain ⟨W₁, hl₁, -⟩ := hx.ok hv
  -- Without a second part the round returns nothing.
  cases htruthy : v.isTruthy with
  | false => exact ⟨W₁, hl₁, fun v hv => by cases hv⟩
  | true =>
    have hb := hd.nested (hs.of_loop (.loopBody hv htruthy) hl₁) hs.nested_loop hl₁
    refine hb.bind fun outcome s₂ houtcome => ?_
    obtain ⟨W₂, hl₂, hreturned⟩ := hb.ok houtcome
    exact ⟨W₂, hl₂, fun v hv => hreturned v (Option.some.inj hv)⟩

/-- The rounds of a loop. -/
theorem loop (hd : h.Keeps host d) {x : Expr Address} {b : Stmt Address} {rounds : Nat}
    (hs : h.Stands host W (.loop rounds d e x b s)) :
    h.Leads host W s noNames (fun W' s' outcome => ∀ v, outcome = .returned v → h.Genuine W' s' v)
      (Eval.loop (round (Treewalk.evaluate host d e x) (Treewalk.execute host d e b)) rounds s) := by
  induction rounds generalizing W s with
  | zero => exact ⟨trivial, W, .refl hs.good⟩
  | succ rounds ih =>
    have hround := hd.oneRound hs
    unfold Eval.loop
    refine hround.bind fun r s₂ hr => ?_
    obtain ⟨W₂, hl₂, hreturned⟩ := hround.ok hr
    -- A round that returned ends the loop with its value; after any other the invariant holds for the rest.
    cases r with
    | none => exact ⟨W₂, hl₂, fun v hv => by cases hv⟩
    | some outcome =>
      cases outcome with
      | returned v => exact ⟨W₂, hl₂, fun w hw => hreturned w (hw ▸ rfl)⟩
      | normal =>
        obtain ⟨v, s₁, hv, htruthy, hb⟩ := round_eq_some.1 hr
        exact .after hl₂ (ih (hs.of_loopAgain hv htruthy hb hl₂))

/-- Statements lead from good stores to good stores, and bind in the own frame what they declare. -/
theorem execute_succ (hd : h.Keeps host d) {t : Stmt Address}
    (hs : h.Stands host W (.node (d + 1) e (.statement t) s)) :
    h.Leads host W s (declaredOn e (.statement t)) (h.Executed e (.statement t))
      (Treewalk.execute host (d + 1) e t s) := by
  have hgood : h.Good host W s := hs.good
  have hnow : h.Later host W s W s noNames := .refl hgood
  unfold Treewalk.execute
  cases t with
  | expression x =>
    have hx := hd.evaluate (hs.of_statement .expression rfl hnow)
    refine .of_none (hx.bind fun v s₁ hv => ?_)
    obtain ⟨W₁, hl₁, -⟩ := hx.ok hv
    exact ⟨W₁, hl₁, .normal fun n hn => by cases hn⟩
  | print x =>
    have hx := hd.evaluate (hs.of_statement .print rfl hnow)
    refine .of_none (hx.bind fun v s₁ hv => ?_)
    obtain ⟨W₁, hl₁, -⟩ := hx.ok hv
    exact ⟨W₁, hl₁.then_frames rfl rfl rfl, .normal fun n hn => by cases hn⟩
  | var n x =>
    -- With an initializer or without one, the declaration ends with the value.
    have hdefine : ∀ W₁ s₁ a, h.Later host W s W₁ s₁ noNames → h.Genuine W₁ s₁ a →
        h.Leads host W s (declaredOn e (.statement (.var n x))) (h.Executed e (.statement (.var n x)))
          ((do define e.own n.text a; return .normal : Eval Outcome) s₁) := by
      intro W₁ s₁ a hl ha
      exact hs.define rfl hl fun s₂ hgrows _ => ha.mono List.prefix_rfl hgrows
    cases x with
    | none => exact hdefine W s .nil hnow trivial
    | some x =>
      have hx := hd.evaluate (hs.of_statement .initializer rfl hnow)
      refine (Leads.of_none hx).bind fun v s₁ hv => ?_
      obtain ⟨W₁, hl₁, hv₁⟩ := hx.ok hv
      exact hdefine W₁ s₁ v hl₁ hv₁
  | block ts =>
    refine .executed ?_ rfl
    obtain ⟨W₁, hl₁, hbody⟩ := hs.of_block
    have hts := hd.body hbody
    have hrun : h.Leads host W s noNames _ (inOrder (Treewalk.execute host d
        (e.extend s.frames.next)) ts (s.withFrame {})) := hts.inFrame hl₁ (Nat.le_refl _)
    exact hrun
  | branch x t f =>
    have hx := hd.evaluate (hs.of_statement .condition rfl hnow)
    refine .executed (hx.bind fun v s₁ hv => ?_) rfl
    obtain ⟨W₁, hl₁, -⟩ := hx.ok hv
    cases htruthy : v.isTruthy with
    | true =>
      exact hd.nested (hs.of_statement (.onTrue hv htruthy) rfl hl₁) hs.nested.1 hl₁
    | false =>
      cases f with
      | none => exact ⟨W₁, hl₁, fun v hv => by cases hv⟩
      | some f =>
        exact hd.nested (hs.of_statement (.onFalse hv htruthy) rfl hl₁) (hs.nested.2 f rfl) hl₁
  | «while» x b => exact .executed (hd.loop hs.of_while) rfl
  | function n r =>
    obtain ⟨p, u, hu, hat⟩ := hs.exists_statement
    obtain ⟨r, rfl, rfl⟩ := Stmt.resolve_eq_function hu.symm
    have hl : h.Later host W s W { s with nextIdentity := s.nextIdentity + 1 } noNames :=
      .of_frames hgood rfl (Nat.le_refl _) hgood.fields hgood.shown
    exact hs.define rfl hl fun s₂ hgrows hbinds => hat.function (hl.grows.trans hgrows) hbinds
  | «return» line x =>
    cases x with
    | none =>
      exact ⟨W, .refl hgood, fun v hv => Outcome.returned.inj hv ▸ trivial, fun n hn => by cases hn⟩
    | some x =>
      have hx := hd.evaluate (hs.of_statement .returned rfl hnow)
      refine .of_none (hx.bind fun v s₁ hv => ?_)
      obtain ⟨W₁, hl₁, hv₁⟩ := hx.ok hv
      exact ⟨W₁, hl₁, fun w hw => Outcome.returned.inj hw ▸ hv₁, fun n hn => by cases hn⟩
  | «class» n ms =>
    obtain ⟨p, u, hu, hat⟩ := hs.exists_statement
    obtain ⟨ms, rfl, rfl⟩ := Stmt.resolve_eq_class hu.symm
    have hl : h.Later host W s W { s with nextIdentity := s.nextIdentity + 1 } noNames :=
      .of_frames hgood rfl (Nat.le_refl _) hgood.fields hgood.shown
    exact hs.define rfl hl fun s₂ hgrows hbinds name m hm =>
      hat.class (hl.grows.trans hgrows) hbinds hm

/-- Calls lead from good stores to good stores: what is bound is bound in new frames. -/
theorem call_succ (hd : h.Keeps host d) {f : Value} {vs : List Value}
    (hs : h.Stands host W (.call (d + 1) f vs s)) :
    h.Leads host W s noNames h.Genuine (Treewalk.call host (d + 1) f vs s) := by
  have hgood : h.Good host W s := hs.good
  cases f with
  | native i arity =>
    rw [call_native]
    cases hnative : host.natives[i]? with
    | none => exact .throw hgood (.inl (by decide))
    | some native => exact hs.callNative hnative
  | function i c =>
    unfold Treewalk.call
    obtain ⟨W₁, hl₁, hbody⟩ := hs.of_routine
    have hts := (hd.body hbody).inFrame hl₁ (Nat.le_refl _)
    refine hts.bind (x := inOrder _ _) fun outcome s₂ houtcome => ?_
    obtain ⟨W₂, hl₂, hreturned⟩ := hts.ok houtcome
    -- An initializer gives its receiver whatever its body returned.
    cases c.isInitializer with
    | true =>
      simp only [if_true]
      exact .after hl₂ (leads_read hl₂.good (by decide) _)
    | false =>
      cases outcome with
      | returned v => exact ⟨W₂, hl₂, hreturned v rfl⟩
      | normal => exact ⟨W₂, hl₂, trivial⟩
  | «class» i c =>
    unfold Treewalk.call
    have hobject : h.Leads host W s noNames (fun _ _ _ => True) (newObject c s) :=
      ⟨W, (later_newObject hgood (fun _ _ hn => hs.method_of_class hn) rfl).1, trivial⟩
    refine hobject.bind fun receiver s₁ hr => ?_
    obtain ⟨hl₁, hreceiver, -⟩ := later_newObject hgood (fun _ _ hn => hs.method_of_class hn) hr
    cases hm : c.methods.find? initializerName with
    | none => exact ⟨W, hl₁, hreceiver⟩
    | some m =>
      have hbind : h.Leads host W s noNames (fun _ _ _ => True) (bindMethod m receiver s₁) := by
        cases hf : bindMethod m receiver s₁ with
        | ok f s₂ =>
          obtain ⟨W₂, hl₂, -, -⟩ := hs.of_initializer hr hm hf
          exact ⟨W₂, hl₂, trivial⟩
        | error stop s₂ => cases hf
      refine hbind.bind fun f s₂ hf => ?_
      obtain ⟨W₂, hl₂, hreceiver₂, hcall⟩ := hs.of_initializer hr hm hf
      have hinit := hd.call hcall
      refine .after hl₂ (hinit.bind fun _ s₃ hdone => ?_)
      obtain ⟨W₃, hl₃, -⟩ := hinit.ok hdone
      exact ⟨W₃, hl₃, hreceiver₂.mono hl₃.worlds hl₃.grows⟩
  | _ => exact .throw hgood (.inl (by decide))

end Keeps

/-- At every depth, a run that begins on a good store leaves a good store behind. -/
theorem keeps (h : History) (host : Host) (d : Nat) : h.Keeps host d := by
  induction d with
  | zero =>
    exact ⟨fun hs => .throw hs.good trivial, fun hs => .throw hs.good trivial,
      fun hs => .throw hs.good trivial⟩
  | succ d ih => exact ⟨fun hs => ih.evaluate_succ hs, fun hs => ih.execute_succ hs,
      fun hs => ih.call_succ hs⟩

/-! ## Programs -/

/-- The frames around the outermost code are the global frame alone. -/
theorem At.outermost (hat : h.At W s v (.outermost globalFrame)) : v.place.openers = [] := by
  have hlength := hat.fits.length_frames
  exact List.length_eq_zero_iff.1 (Nat.succ.inj hlength.symm)

namespace Stands

variable {t : Stmt Address} {ts : List (Stmt Address)}

/-- A program that runs is the resolved rest of a visited body, run in the global frame. -/
theorem of_program (hs : h.Stands host W (.program d (t :: ts) s)) :
    ∃ p u us, t = (Stmt.resolve p.scoping u).value ∧
      ts = (Stmt.resolveList (p.scoping.after u) us).value ∧
      h.At W s ⟨p, .body (u :: us)⟩ (.outermost globalFrame) := by
  obtain ⟨-, -, ⟨p, unit⟩, hv, hat⟩ := hs
  cases unit with
  | body us =>
    cases us with
    | nil => cases hv
    | cons u us =>
      have hlist := Node.body.inj hv
      exact ⟨p, u, us, (List.cons.inj hlist).1.symm, (List.cons.inj hlist).2.symm, hat⟩
  | _ => cases hv

/-- A statement of a program stands in the global environment. -/
theorem of_outermost (hs : h.Stands host W (.program d (t :: ts) s)) {node : Node Address}
    (hc : Calls host (.program d (t :: ts) s) (.node d (.outermost globalFrame) node s)) :
    h.Stands host W (.node d (.outermost globalFrame) node s) := by
  obtain ⟨p, u, us, rfl, rfl, hat⟩ := hs.of_program
  have hnow : h.Later host W s W s noNames := .refl hs.good
  have hu : h.At W s ⟨p, .statement u⟩ (.outermost globalFrame) :=
    hat.part List.mem_cons_self rfl rfl
  have hcall := hc
  -- An expression is evaluated as such, every other statement is executed.
  cases u with
  | expression x =>
    cases hc with
    | outermostExpression => exact part hs.happens hs.good hu hcall hnow List.mem_cons_self rfl rfl rfl
    | outermostStatement ht => exact absurd rfl (ht _)
  | _ =>
    cases hc
    exact ⟨h.calls hs.happens hcall, hs.good, _, rfl, hu⟩

/-- What a statement of a program leaves behind. -/
theorem runStatement (hs : h.Stands host W (.program d (t :: ts) s)) :
    h.Leads host W s (declaredOn (.outermost globalFrame) (.statement t))
      (fun W' s' r => (∀ v, r = some v → h.Genuine W' s' v) ∧
        ∀ n ∈ t.declared, s'.Binds globalFrame n)
      (Treewalk.runStatement host d t s) := by
  have hd := keeps h host d
  unfold Treewalk.runStatement
  -- Only an expression has a value to keep, only a statement has names to bind.
  split
  · next x =>
    have hx := hd.evaluate (hs.of_outermost .outermostExpression)
    refine .of_none (hx.bind (f := fun v => pure (some v)) fun v s₁ hv => ?_)
    obtain ⟨W₁, hl₁, hv₁⟩ := hx.ok hv
    exact ⟨W₁, hl₁, fun w hw => Option.some.inj hw ▸ hv₁, fun n hn => by cases hn⟩
  · next ht =>
    have hx := hd.execute (hs.of_outermost (.outermostStatement ht))
    refine hx.bind fun outcome s₁ houtcome => ?_
    obtain ⟨W₁, hl₁, hx₁⟩ := hx.ok houtcome
    exact ⟨W₁, hl₁, fun v hv => (by cases hv), hx₁.2⟩

/-- The statements of a program after one that came to its end. -/
theorem of_laterOutermost (hs : h.Stands host W (.program d (t :: ts) s)) {r : Option Value}
    (ht : Treewalk.runStatement host d t s = .ok r s₁) :
    ∃ W', h.Later host W s W' s₁ (declaredOn (.outermost globalFrame) (.statement t)) ∧
      h.Stands host W' (.program d ts s₁) ∧ ∀ v, r = some v → h.Genuine W' s₁ v := by
  obtain ⟨W₁, hl₁, hr, hbinds⟩ := hs.runStatement.ok ht
  have hcall := h.calls hs.happens (.laterOutermost ht)
  obtain ⟨p, u, us, rfl, rfl, hat⟩ := hs.of_program
  have hdeclared : ∀ n, n ∈ (u.resolve p.scoping).value.declared ↔ n ∈ u.declared := fun n => by
    rw [u.declared_resolve]
  have hafter : h.At W₁ s₁ ⟨p.after u, .body us⟩ (.outermost globalFrame) :=
    hat.after hs.good (hl₁.weaken fun f n hn => ⟨hn.1, (hdeclared n).1 hn.2⟩)
      fun n hn => hbinds n ((hdeclared n).2 hn)
  exact ⟨W₁, hl₁, ⟨hcall, hl₁.good, ⟨p.after u, .body us⟩, rfl, hafter⟩, hr⟩

/-- A part of an expression that is begun once another part has its value stands, on the store that the
other part leaves. -/
theorem of_laterPart {x y : Expr Address} {v : Value} {d' : Nat} {e' : Environment} {node : Node Address}
    (hs : h.Stands host W (.node (d + 1) e (.expression y) s))
    (hfirst : Calls host (.node (d + 1) e (.expression y) s) (.node d e (.expression x) s))
    (hx : Treewalk.evaluate host d e x s = .ok v s₁)
    (hcall : Calls host (.node (d + 1) e (.expression y) s) (.node d' e' node s₁)) :
    ∃ W', W <+: W' ∧ s.Grows s₁ ∧ h.Stands host W' (.node d' e' node s₁) := by
  have hpart := hs.of_expression hfirst (.refl hs.good)
  obtain ⟨W₁, hl₁, -⟩ := ((keeps h host d).evaluate hpart).ok hx
  exact ⟨W₁, hl₁.worlds, hl₁.grows, hs.of_expression hcall hl₁⟩

/-- Whatever a standing activation leads to directly stands as well, on a store that has grown. -/
theorem next {a b : Activation} (hs : h.Stands host W a) (hc : Calls host a b) :
    ∃ W', W <+: W' ∧ a.store.Grows b.store ∧ h.Stands host W' b := by
  have hnow : h.Later host W a.store W a.store noNames := .refl hs.good
  have hsame : W <+: W ∧ a.store.Grows a.store := ⟨List.prefix_rfl, .refl _⟩
  have hd := keeps h host
  -- The parts that came before the activation lead to a world that its store fits, by `keeps`.
  have hcall := hc
  cases hc with
  | grouping | unary | left | first | assigned | callee | object | target =>
    exact ⟨W, hsame.1, hsame.2, hs.of_expression hcall hnow⟩
  | right hx => exact hs.of_laterPart .left hx hcall
  | second hx _ => exact hs.of_laterPart .first hx hcall
  | arguments hx => exact hs.of_laterPart .callee hx hcall
  | called hx hxs hcheck =>
    obtain ⟨W₁, hl₁, hf⟩ := ((hd _).evaluate (hs.of_expression .callee hnow)).ok hx
    obtain ⟨W₂, hl₂, hvs⟩ := ((hd _).arguments (hs.of_expression (.arguments hx) hl₁)).ok hxs
    obtain ⟨harity, rfl⟩ := checkCall_ok hcheck
    have hl := hl₁.trans hl₂
    exact ⟨W₂, hl.worlds, hl.grows, h.calls hs.happens hcall, hl.good,
      hf.mono hl₂.worlds hl₂.grows, hvs, harity⟩
  | bound hx hfield hm =>
    obtain ⟨W₁, hl₁, hobject⟩ := ((hd _).evaluate (hs.of_expression .object hnow)).ok hx
    exact ⟨W₁, hl₁.worlds, hl₁.grows, h.calls hs.happens hcall, hl₁.good, hobject.2 _ _ hm, hobject,
      _, _, rfl⟩
  | stored hx => exact hs.of_laterPart .target hx hcall
  | argument => exact ⟨W, hsame.1, hsame.2, hs.of_arguments hcall hnow⟩
  | laterArguments hx =>
    obtain ⟨W₁, hl₁, -⟩ := ((hd _).evaluate (hs.of_arguments .argument hnow)).ok hx
    exact ⟨W₁, hl₁.worlds, hl₁.grows, hs.of_arguments hcall hl₁⟩
  | expression | print | initializer | condition | returned =>
    exact ⟨W, hsame.1, hsame.2, hs.of_statement hcall rfl hnow⟩
  | block =>
    obtain ⟨W₁, hl₁, hbody⟩ := hs.of_block
    exact ⟨W₁, hl₁.worlds, hl₁.grows, hbody⟩
  | onTrue hx hv | onFalse hx hv =>
    obtain ⟨W₁, hl₁, -⟩ := ((hd _).evaluate (hs.of_statement .condition rfl hnow)).ok hx
    exact ⟨W₁, hl₁.worlds, hl₁.grows, hs.of_statement hcall rfl hl₁⟩
  | loop => exact ⟨W, hsame.1, hsame.2, hs.of_while⟩
  | loopCondition => exact ⟨W, hsame.1, hsame.2, hs.of_loop hcall hnow⟩
  | loopBody hx hv =>
    obtain ⟨W₁, hl₁, -⟩ := ((hd _).evaluate (hs.of_loop .loopCondition hnow)).ok hx
    exact ⟨W₁, hl₁.worlds, hl₁.grows, hs.of_loop hcall hl₁⟩
  | loopAgain hx hv hb =>
    obtain ⟨W₁, hl₁, -⟩ := ((hd _).evaluate (hs.of_loop .loopCondition hnow)).ok hx
    obtain ⟨W₂, hl₂, -⟩ :=
      ((hd _).nested (hs.of_loop (.loopBody hx hv) hl₁) hs.nested_loop hl₁).ok hb
    exact ⟨W₂, hl₂.worlds, hl₂.grows, hs.of_loopAgain hx hv hb hl₂⟩
  | statement => exact ⟨W, hsame.1, hsame.2, hs.of_body⟩
  | laterStatements ht =>
    obtain ⟨W₁, hl₁, hx⟩ := ((hd _).execute hs.of_body).ok ht
    exact ⟨W₁, hl₁.worlds, hl₁.grows, hs.of_later ht hl₁ hx⟩
  | routine =>
    obtain ⟨W₁, hl₁, hbody⟩ := hs.of_routine
    exact ⟨W₁, hl₁.worlds, hl₁.grows, hbody⟩
  | initializerBound hr hm =>
    obtain ⟨hl₁, hbind⟩ := hs.of_class hr hm
    exact ⟨W, hl₁.worlds, hl₁.grows, hbind⟩
  | initializerCalled hr hm hf =>
    obtain ⟨W₂, hl₂, -, hstands⟩ := hs.of_initializer hr hm hf
    exact ⟨W₂, hl₂.worlds, hl₂.grows, hstands⟩
  | fetched hnative hannounce hbind =>
    obtain ⟨W₁, hl₁, hstands⟩ := hs.of_native hnative hannounce hbind
    exact ⟨W₁, hl₁.worlds, hl₁.grows, hstands⟩
  | outermostExpression => exact ⟨W, hsame.1, hsame.2, hs.of_outermost hcall⟩
  | outermostStatement ht => exact ⟨W, hsame.1, hsame.2, hs.of_outermost hcall⟩
  | laterOutermost ht =>
    obtain ⟨W₁, hl₁, hstands, -⟩ := hs.of_laterOutermost ht
    exact ⟨W₁, hl₁.worlds, hl₁.grows, hstands⟩

/-- Whatever a standing activation leads to stands as well, on a store that has grown. -/
theorem leadsTo {a b : Activation} (hs : h.Stands host W a) (hab : a.LeadsTo host b) :
    ∃ W', W <+: W' ∧ a.store.Grows b.store ∧ h.Stands host W' b := by
  induction hab with
  | refl => exact ⟨W, List.prefix_rfl, .refl _, hs⟩
  | tail _ hbc ih =>
    obtain ⟨W₁, hW₁, hgrows₁, hb⟩ := ih
    obtain ⟨W₂, hW₂, hgrows₂, hc⟩ := hb.next hbc
    exact ⟨W₂, hW₁.trans hW₂, hgrows₁.trans hgrows₂, hc⟩

/-- The statements of a program one after another, from the value of those before. -/
theorem foldlM {ts : List (Stmt Address)} (hs : h.Stands host W (.program d ts s)) {last : Option Value}
    (hlast : ∀ v, last = some v → h.Genuine W s v) :
    h.Leads host W s (fun _ _ => True) (fun W' s' r => ∀ v, r = some v → h.Genuine W' s' v)
      (ts.foldlM (fun _ t => Treewalk.runStatement host d t) last s) := by
  induction ts generalizing W s last with
  | nil => exact .pure hs.good hlast
  | cons t ts ih =>
    rw [List.foldlM_cons]
    have ht : h.Leads host W s (fun _ _ => True) _ _ := hs.runStatement.weaken fun _ _ _ => trivial
    refine ht.bind fun r s₁ hr => ?_
    obtain ⟨W₁, hl₁, hstands, hgenuine⟩ := hs.of_laterOutermost hr
    exact .after (hl₁.weaken fun _ _ _ => trivial) (ih hstands hgenuine)

/-- A program leaves a good store behind, and a genuine value. -/
theorem runProgram {ts : List (Stmt Address)} (hs : h.Stands host W (.program d ts s)) :
    h.Leads host W s (fun _ _ => True) (fun W' s' r => ∀ v, r = some v → h.Genuine W' s' v)
      (Treewalk.runProgram host d ts s) := by
  unfold Treewalk.runProgram
  exact hs.foldlM fun v hv => by cases hv

end Stands

end History

end Treewalk
