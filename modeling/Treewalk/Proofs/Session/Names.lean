import Treewalk.Proofs.Session.Gains
import Treewalk.Proofs.Session.Receiver

/-!
# The names of frames

Frames keep the names they have, and get new ones from declarations. An activation that declares nothing
itself leaves the frames that were there with the names they had, however many functions it calls and
however it ends: what is declared inside it is declared in frames of its own. The exception is an
assignment that comes before its declaration (`Session.only_declarations_bind`).
-/

namespace Treewalk

open Eval Activation

/-- The names that an activation declares in its own environment. -/
def Activation.declared : Activation → List String
  | .node _ _ n _ => n.declared
  | .program _ ts _ => ts.flatMap Stmt.declared
  | _ => []

namespace History

variable {h : History} {host : Host} {W : World} {a b : Activation}

/-! ## Frames that are spared -/

/-- An activation executes no declaration in the frames before a given one: it declares nothing, or does
it in the given frame or a later one. -/
inductive Spares (first : FrameId) : Activation → Prop
  | nothing {a : Activation} (hnone : a.declared = []) : Spares first a
  | later {d e node s} (hlater : first ≤ e.own) : Spares first (.node d e node s)

/-- An activation that spares the frames that were there before leads to others that spare them: the body
of a block or of a routine has a frame of its own, and no declaration stands alone in a branch or a
loop. -/
theorem Stands.spares_next {first : FrameId} (hs : h.Stands host W a)
    (hfirst : first ≤ a.store.frames.next) (ha : Spares first a) (hc : Calls host a b) :
    Spares first b := by
  cases hc with
  -- A block and a routine have a frame of their own, which is a new one.
  | block | routine => exact .later hfirst
  -- A branch and the body of a loop do not declare anything.
  | onTrue => exact .nothing hs.nested.1
  | onFalse => exact .nothing (hs.nested.2 _ rfl)
  | loopBody => exact .nothing hs.nested_loop
  -- Statements of a body or a program are as sparing as the body or program is.
  | statement =>
    cases ha with
    | nothing hnone => exact .nothing (List.append_eq_nil_iff.1 hnone).1
    | later hlater => exact .later hlater
  | laterStatements =>
    cases ha with
    | nothing hnone => exact .nothing (List.append_eq_nil_iff.1 hnone).2
    | later hlater => exact .later hlater
  | outermostStatement =>
    cases ha with
    | nothing hnone => exact .nothing (List.append_eq_nil_iff.1 hnone).1
  | laterOutermost =>
    cases ha with
    | nothing hnone => exact .nothing (List.append_eq_nil_iff.1 hnone).2
  | _ => exact .nothing rfl

/-- Whatever an activation leads to spares the frames that it spares. -/
theorem Stands.spares {first : FrameId} (hs : h.Stands host W a)
    (hfirst : first ≤ a.store.frames.next) (ha : Spares first a) (hab : a.LeadsTo host b) :
    Spares first b := by
  induction hab with
  | refl => exact ha
  | tail hab hbc ih =>
    obtain ⟨W', -, hgrows, hb⟩ := hs.leadsTo hab
    exact hb.spares_next (Nat.le_trans hfirst hgrows.next) ih hbc

/-- A frame that was made for a scope is not the global frame. -/
theorem Opens.ne_globalFrame (hall : h.AllStand) {f : FrameId} {fs : List FrameId} {o : Opener}
    (ho : h.Opens f fs o) : f ≠ globalFrame := by
  -- Each of the three made its frame when the global one was there.
  obtain ⟨host, a, ha, rfl⟩ : ∃ host a, h.happens host a ∧ a.store.frames.next = f := by
    cases o with
    | block c body =>
      obtain ⟨host, d, e, s, ha, -, hf⟩ := ho
      exact ⟨host, _, ha, hf⟩
    | routine c kind r =>
      obtain ⟨host, d, i, closure, vs, s, ha, -, -, hf⟩ := ho
      exact ⟨host, _, ha, hf⟩
    | receiver c ms =>
      obtain ⟨host, m, receiver, s, ha, -, -, hf⟩ := ho
      exact ⟨host, _, ha, hf⟩
  obtain ⟨W, hs⟩ := hall host a ha
  exact (Nat.ne_of_lt hs.good.global_lt).symm

/-- Only frames that were made for a scope get a name early. -/
theorem Early.ne_globalFrame (hall : h.AllStand) {f : FrameId} {n : String}
    (hb : h.Early host b f n) : f ≠ globalFrame := by
  cases hb with
  | assigned _ _ _ _ _ hfound _ =>
    obtain ⟨σ, o, -, -, -, hopens⟩ := hfound.made
    exact hopens.ne_globalFrame hall

/-- What happens to the names of the frames in an activation, however it ends. No name is lost. Each name
that is bound at its end but not at its beginning was bound by something that it led to. If the
activation declares nothing itself, the frames that were there before have the names they had, or names
that were bound early in other frames than the global one. -/
structure KeepsNames (h : History) (host : Host) (a : Activation) : Prop where
  kept : ∀ f n, a.store.Binds f n → (a.final host).Binds f n
  gained : h.Accounts host a a.store (a.final host)
  spared : a.declared = [] → ∀ f n, f < a.store.frames.next → (a.final host).Binds f n →
    a.store.Binds f n ∨ f ≠ globalFrame ∧ ∃ b, a.LeadsTo host b ∧ h.Early host b f n

/-- Every activation keeps names: a part that declares none binds none in the frames of before. -/
theorem keepsNames (hall : h.AllStand) (ha : h.happens host a) : h.KeepsNames host a := by
  obtain ⟨W, hs⟩ := hall host a ha
  refine ⟨hs.grows.binds, accounts hall ha, fun hnone f n hf hb => ?_⟩
  refine (accounts hall ha f n hb).imp_right ?_
  rintro ⟨b, hab, hgains⟩
  have hb' := hs.spares (Nat.le_refl _) (.nothing hnone) hab
  obtain ⟨-, -, hgrows, -⟩ := hs.leadsTo hab
  -- The frames of declarations, parameters and receivers are not among those that were there.
  cases hgains with
  | @declared d e s n v t s₁ hn =>
    cases hb' with
    | nothing hnone =>
      have hmem : n ∈ Activation.declared (.node d e (.statement t) s) := hn
      rw [hnone] at hmem
      cases hmem
    | later hlater => exact absurd hf (Nat.not_lt.2 hlater)
  | parameter | receiver => exact absurd hf (Nat.not_lt.2 hgrows.next)
  | early hearly => exact ⟨hearly.ne_globalFrame hall, b, hab, hearly⟩

end History

namespace Session

open History

variable {time : Nat → Float} {limits : Limits} {ops past : List Operation} {op : Operation} {f : FrameId}
  {n : String}

/-- A name that an operation binds is that of a native function, in the global frame, or it is bound by
something that the program of the operation leads to. -/
theorem binds_performAll (hop : past ++ [op] <+: ops)
    (hb : ((starting time limits).performAll (past ++ [op])).store.Binds f n) :
    ((starting time limits).performAll past).store.Binds f n ∨
      (f = globalFrame ∧ ∃ arity native, op = .registerNative n arity native) ∨
      ∃ text p b, op.text? = some text ∧ ((starting time limits).performAll past).Accepts text p ∧
        (((starting time limits).performAll past).rootActivation p).LeadsTo
          ((starting time limits).performAll past).host b ∧
        (history (starting time limits) ops).Gains ((starting time limits).performAll past).host b f n := by
  have hperform := performAll_append (starting time limits) past op
  -- An operation runs a program, or registers a native function, or leaves the store as it is.
  rcases perform_cases ((starting time limits).performAll past) op with
    ⟨text, p, htext, haccepts, -⟩ | ⟨name, arity, native, rfl⟩ | ⟨hstore, -⟩
  · have hruns : (history (starting time limits) ops).happens _ _ :=
      ⟨_, p, ⟨past, op, text, hop, htext, rfl, haccepts⟩, rfl, .refl⟩
    have hall := accounts (allStand time limits ops) hruns f n
    rw [final_rootActivation htext haccepts, ← hperform] at hall
    refine (hall hb).imp_right fun hgains => .inr ?_
    obtain ⟨b, hleads, hgains⟩ := hgains
    exact ⟨text, p, b, htext, haccepts, hleads, hgains⟩
  · rw [hperform] at hb
    obtain ⟨v, hv⟩ := hb
    rcases Frames.find?_put_cases _ hv with ⟨rfl, rfl, -⟩ | hv
    · exact .inr (.inl ⟨rfl, arity, native, rfl⟩)
    · exact .inl ⟨v, hv⟩
  · rw [hperform, hstore] at hb
    exact .inl hb

/-- Only declarations add names to a frame, and no frame loses one. What happens in a session keeps the
names of the frames, however it ends; an operation binds no names but those of its program and of native
functions; a later state binds what an earlier one did; and no call of a function adds a global name. -/
theorem only_declarations_bind (time : Nat → Float) (limits : Limits) (ops : List Operation) :
    (∀ host a, (history (starting time limits) ops).happens host a →
      (history (starting time limits) ops).KeepsNames host a) ∧
    (∀ past op, past ++ [op] <+: ops → ∀ f n,
      ((starting time limits).performAll (past ++ [op])).store.Binds f n →
      ((starting time limits).performAll past).store.Binds f n ∨
        (f = globalFrame ∧ ∃ arity native, op = .registerNative n arity native) ∨
        ∃ text p b, op.text? = some text ∧ ((starting time limits).performAll past).Accepts text p ∧
          (((starting time limits).performAll past).rootActivation p).LeadsTo
            ((starting time limits).performAll past).host b ∧
          (history (starting time limits) ops).Gains ((starting time limits).performAll past).host
            b f n) ∧
    (∀ s s', Precedes (starting time limits) ops s s' → ∀ f n, s.Binds f n → s'.Binds f n) ∧
    (∀ host d g vs s n, (history (starting time limits) ops).happens host (.call d g vs s) →
      (leaves (call host d g vs) s).Binds globalFrame n → s.Binds globalFrame n) := by
  have hall := allStand time limits ops
  refine ⟨fun host a ha => keepsNames hall ha, fun past op hop f n hb => ?_,
    fun s s' hlater => (grows_of_precedes hlater).binds, fun host d g vs s n ha hb => ?_⟩
  · exact binds_performAll hop hb
  · obtain ⟨W, hs⟩ := hall host _ ha
    -- A call declares nothing, and no assignment binds a name in the global frame early.
    rw [← final_call] at hb
    obtain hb | ⟨hf, -⟩ := (keepsNames hall ha).spared rfl globalFrame n hs.good.global_lt hb
    · exact hb
    · exact absurd rfl hf

/-- A block that declares a variable and assigns to it in its initializer. -/
def assignEarly : List (Stmt Unit) :=
  [.block [.var ⟨"a", 1⟩ (some (.assign ⟨"a", 1⟩ () (.literal .nil)))]]

/-- The text of `assignEarly` is accepted. -/
theorem accepts_assignEarly :
    (starting 0 .standard).Accepts "\x7bvar a=a=nil;\x7d" assignEarly := by
  refine ⟨by decide +kernel, ?_, by decide +kernel⟩
  have htokens : (Scan.ofText "\x7bvar a=a=nil;\x7d" (starting 0 .standard).line).tokens =
      [Grammar.sym .leftBrace 1, Grammar.word .var 1, Grammar.ident ⟨"a", 1⟩, Grammar.sym .equal 1,
        Grammar.ident ⟨"a", 1⟩, Grammar.sym .equal 1, Grammar.word .nil 1, Grammar.sym .semicolon 1,
        Grammar.sym .rightBrace 1] := by decide +kernel
  rw [htokens]
  -- The derivation from the inside to the outside: an assignment in the initializer of its variable.
  have hassign : Grammar.Derives true 299 (.expression .assignment)
      [Grammar.ident ⟨"a", 1⟩, Grammar.sym .equal 1, Grammar.word .nil 1]
      (.assign ⟨"a", 1⟩ () (.literal .nil)) :=
    .assign (d := 298) (.of_atom (t := Grammar.word .nil 1) rfl)
  have hvar : Grammar.Derives true 299 .varDeclaration
      [Grammar.word .var 1, Grammar.ident ⟨"a", 1⟩, Grammar.sym .equal 1, Grammar.ident ⟨"a", 1⟩,
        Grammar.sym .equal 1, Grammar.word .nil 1, Grammar.sym .semicolon 1]
      (.var ⟨"a", 1⟩ (some (.assign ⟨"a", 1⟩ () (.literal .nil)))) :=
    .var hassign
  exact Grammar.reads_of_derives (.declarations (.statement (.block (d := 299)
    (.declarations (.varDeclaration hvar) .noDeclaration))) .noDeclaration)

/-- The assignment binds the name, in a frame that was there before, and it is the exception. -/
theorem only_declarations_bind_assignEarly : ∃ a f n,
    (history (starting 0 .standard) [.execute "\x7bvar a=a=nil;\x7d"]).happens
        (starting 0 .standard).host a ∧
      a.declared = [] ∧ f < a.store.frames.next ∧ ¬a.store.Binds f n ∧
      (a.final (starting 0 .standard).host).Binds f n ∧ ∃ b, a.LeadsTo (starting 0 .standard).host b ∧
        (history (starting 0 .standard) [.execute "\x7bvar a=a=nil;\x7d"]).Early
          (starting 0 .standard).host b f n := by
  have hruns := (runs_execute accepts_assignEarly).2 ⟨rfl, rfl⟩
  -- The assignment is executed on the frame of the block, before the declaration is.
  have hhappens : (history (starting 0 .standard) [.execute "\x7bvar a=a=nil;\x7d"]).happens
      (starting 0 .standard).host (.node 448 ((Environment.outermost globalFrame).extend 1)
        (.expression (.assign ⟨"a", 1⟩ (.scope 0) (.literal .nil)))
        ((starting 0 .standard).store.withFrame {})) := by
    have hblock : ∀ x, Stmt.block [.var ⟨"a", 1⟩ (some (.assign ⟨"a", 1⟩ (Address.scope 0)
        (.literal .nil)))] ≠ .expression x := by
      intro x hx
      cases hx
    exact ⟨_, _, hruns, rfl, .head (.outermostStatement hblock) <| .head .block <|
      .head .statement <| .single .initializer⟩
  have hnew : ¬((starting 0 .standard).store.withFrame {}).Binds 1 "a" := by
    rintro ⟨v, hv⟩
    cases hv
  have hfinal : ((Activation.node 448 ((Environment.outermost globalFrame).extend 1)
      (.expression (.assign ⟨"a", 1⟩ (.scope 0) (.literal .nil)))
      ((starting 0 .standard).store.withFrame {})).final (starting 0 .standard).host).Binds 1 "a" :=
    ⟨.nil, rfl⟩
  obtain ⟨hkeeps, -⟩ := only_declarations_bind 0 .standard _
  obtain hb | ⟨-, hearly⟩ := (hkeeps _ _ hhappens).spared rfl 1 "a" (by decide) hfinal
  · exact absurd hb hnew
  · exact ⟨_, 1, "a", hhappens, rfl, by decide, hnew, hfinal, hearly⟩

end Session

end Treewalk
