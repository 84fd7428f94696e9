import Treewalk.Proofs.Eval.Preservation
import Treewalk.Proofs.Grammar.Worded
import Treewalk.Proofs.Session.Accepted

/-!
# The history of a session

What is done with a session, one operation after another, and what comes of it: the programs that are
run, every visit that resolving makes in them, and every activation that running them leads to. Any native
function may be registered, and the clock may show anything.

Between two operations the store of a session is good (`recorded`), so every activation stands
(`stands`).
-/

namespace Treewalk

/-! ## Operations -/

namespace Session

/-- What can be done with a session. -/
inductive Operation where
  | execute (text : String)
  | runFile (path : String) (content : Option (List UInt8))
  | scan (text : String)
  | parse (text : String)
  | pop
  | registerNative (name : String) (arity : Nat) (native : Native)
  /-- Anything that is done to the log. -/
  | relog (log : Log)

/-- The text that an operation runs as a unit. -/
def Operation.text? : Operation → Option String
  | execute text => some text
  | runFile _ (some bytes) => (fileText bytes).toOption
  | _ => none

/-- A session after an operation. -/
def perform (s : Session) : Operation → Session
  | .execute text => (s.execute text).1
  | .runFile path content => (s.runFile path content).1
  | .scan text => (s.scan text).1
  | .parse text => (s.parse text).1
  | .pop => s.pop.1
  | .registerNative name arity native => s.registerNative name arity native
  | .relog log => { s with log := log }

/-- A session after operations, one after another. -/
def performAll (s : Session) (ops : List Operation) : Session := ops.foldl perform s

/-- In the course of the operations a session is about to run a unit, and this is its program. -/
def Runs (start : Session) (ops : List Operation) (s : Session) (p : List (Stmt Unit)) : Prop :=
  ∃ past op text, past ++ [op] <+: ops ∧ op.text? = some text ∧ s = start.performAll past ∧
    s.Accepts text p

/-- The first visit of resolving a program. -/
def rootVisit (s : Session) (p : List (Stmt Unit)) : Visit :=
  ⟨.outermost s.limits.tree, .body p⟩

/-- The first activation of running a program. -/
def rootActivation (s : Session) (p : List (Stmt Unit)) : Activation :=
  .program s.limits.run (resolveProgram s.limits.tree p).value s.store

/-- The programs that pass are worded, and resolving them finds nothing. -/
theorem Accepts.sound {s : Session} {text : String} {p : List (Stmt Unit)} (h : s.Accepts text p)
    {v : Visit} (hv : (s.rootVisit p).Reaches v) : v.Sound := by
  have hderives := Grammar.derives_of_reads h.parsed
  have hworded := hderives.worded (fun t ht w hw => Scan.isName ht hw) (.outermost s.limits.tree)
  refine Visit.Sound.reaches ⟨?_, hworded _ .refl, .outermost _, fun o ho => by cases ho⟩ hworded hv
  have hfindings := h.resolved
  unfold resolveProgram at hfindings
  show (Stmt.resolveList (.outermost s.limits.tree) p).findings ++ [] = []
  rw [hfindings]
  rfl

/-- All that is visited and all that happens in the course of operations on a session. -/
def history (start : Session) (ops : List Operation) : History where
  visits v := ∃ s p, start.Runs ops s p ∧ (s.rootVisit p).Reaches v
  happens host a := ∃ s p, start.Runs ops s p ∧ host = s.host ∧
    (s.rootActivation p).LeadsTo host a
  parts := by
    rintro v w ⟨s, p, hruns, hv⟩ hw
    exact ⟨s, p, hruns, hv.tail hw⟩
  calls := by
    rintro host a b ⟨s, p, hruns, rfl, ha⟩ hb
    exact ⟨s, p, hruns, rfl, ha.tail hb⟩
  sound := by
    rintro v ⟨s, p, ⟨past, op, text, -, -, -, haccepts⟩, hv⟩
    exact haccepts.sound hv

/-! ## Between operations -/

/-- A text that is accepted changes the store as its run does, and a value that it ends with is kept. -/
theorem execute_of_run {s : Session} {text : String} {p : List (Stmt Unit)} (h : s.Accepts text p) :
    match runProgram s.host s.limits.run (resolveProgram s.limits.tree p).value s.store with
    | .ok v store => ∃ log line, (s.execute text).1 =
        { s with store := store, results := s.results ++ v.toList, log := log, line := line }
    | .error _ store => ∃ log line, (s.execute text).1 =
        { s with store := store, log := log, line := line } := by
  rw [execute_eq h]
  cases runProgram s.host s.limits.run (resolveProgram s.limits.tree p).value s.store with
  | ok v store =>
    -- A value is kept as a result, and a stop is reported or leaves the session; the store is what it is.
    cases v with
    | none => exact ⟨_, _, by rw [Option.toList_none, List.append_nil]; rfl⟩
    | some v => exact ⟨_, _, rfl⟩
  | error stop store =>
    rcases conclude_error_cases stop store with ⟨e, hconclude⟩ | ⟨escape, hconclude⟩
    · rw [hconclude]
      exact ⟨_, _, rfl⟩
    · rw [hconclude]
      exact ⟨_, _, rfl⟩

/-- A file that can be read is run as the text that it holds. -/
theorem runFile_of_ok {s : Session} {path : String} {bytes : List UInt8} {text : String}
    (h : fileText bytes = .ok text) : s.runFile path (some bytes) = s.execute text := by
  unfold runFile
  simp only [h]

/-- A file that holds no text is not run. -/
theorem runFile_of_error {s : Session} {path : String} {bytes : List UInt8} {escape : Escape}
    (h : fileText bytes = .error escape) : s.runFile path (some bytes) = (s, .error escape) := by
  unfold runFile
  simp only [h]

/-- An operation with a text runs it. -/
theorem perform_of_text {s : Session} {op : Operation} {text : String} (h : op.text? = some text) :
    s.perform op = (s.execute text).1 := by
  cases op with
  | execute text' =>
    cases h
    rfl
  | runFile path content =>
    cases content with
    | none => cases h
    | some bytes =>
      change (fileText bytes).toOption = some text at h
      -- A file has a text if it can be read and decoded.
      cases htext : fileText bytes with
      | error escape =>
        rw [htext] at h
        cases h
      | ok text' =>
        rw [htext] at h
        cases h
        exact congrArg Prod.fst (runFile_of_ok htext)
  | _ => cases h

/-- An operation runs an accepted text, or registers a native function, or leaves all but the log, the
line and the results alone, and adds no result. -/
theorem perform_cases (s : Session) (op : Operation) :
    (∃ text p, op.text? = some text ∧ s.Accepts text p ∧ s.perform op = (s.execute text).1) ∨
      (∃ name arity native, op = .registerNative name arity native) ∨
      ((s.perform op).store = s.store ∧ (s.perform op).host = s.host ∧
        (s.perform op).limits = s.limits ∧ ∀ v ∈ (s.perform op).results, v ∈ s.results) := by
  cases htext : op.text? with
  | some text =>
    have hperform := s.perform_of_text htext
    by_cases haccepts : ∃ p, s.Accepts text p
    · obtain ⟨p, hp⟩ := haccepts
      exact .inl ⟨text, p, rfl, hp, hperform⟩
    · obtain ⟨log, line, -, h, -⟩ := execute_of_not_accepts haccepts
      rw [hperform, h]
      exact .inr (.inr ⟨rfl, rfl, rfl, fun v hv => hv⟩)
  | none =>
    cases op with
    | execute text => cases htext
    | runFile path content =>
      -- The file cannot be opened, or it is no text.
      have hperform : s.perform (.runFile path content) = s := by
        cases content with
        | none => rfl
        | some bytes =>
          change (fileText bytes).toOption = none at htext
          cases hbytes : fileText bytes with
          | error escape => exact congrArg Prod.fst (runFile_of_error hbytes)
          | ok text =>
            rw [hbytes] at htext
            cases htext
      rw [hperform]
      exact .inr (.inr ⟨rfl, rfl, rfl, fun v hv => hv⟩)
    | scan text | parse text | relog log => exact .inr (.inr ⟨rfl, rfl, rfl, fun v hv => hv⟩)
    | pop =>
      refine .inr (.inr ?_)
      unfold perform pop
      cases hresults : s.results with
      | nil => exact ⟨rfl, rfl, rfl, fun v hv => hresults ▸ hv⟩
      | cons v later => exact ⟨rfl, rfl, rfl, fun w hw => List.mem_cons_of_mem _ hw⟩
    | registerNative name arity native => exact .inr (.inl ⟨name, arity, native, rfl⟩)

/-- A new session, with the given clock and limits. -/
def starting (time : Nat → Float) (limits : Limits) : Session := { Session.new time with limits := limits }

/-- All is in order after some of the operations: the store is good, and the results are genuine. -/
structure Recorded (start : Session) (ops past : List Operation) (W : World) : Prop where
  good : (history start ops).Good (start.performAll past).host W (start.performAll past).store
  results : ∀ a ∈ (start.performAll past).results,
    (history start ops).Genuine W (start.performAll past).store a

variable {start : Session} {ops past : List Operation} {W W' : World} {op : Operation}

/-- One operation more comes after the others. -/
theorem performAll_append (s : Session) (past : List Operation) (op : Operation) :
    s.performAll (past ++ [op]) = (s.performAll past).perform op := by
  unfold performAll
  rw [List.foldl_append]
  rfl

/-- After one more operation all is in order if the store is good and the new results are genuine. -/
theorem Recorded.step {s : Session} (hr : Recorded start ops past W)
    (hs : s = start.performAll (past ++ [op])) (hW : W <+: W')
    (hgrows : (start.performAll past).store.Grows s.store)
    (hgood : (history start ops).Good s.host W' s.store)
    (hresults : ∀ a ∈ s.results, a ∈ (start.performAll past).results ∨
      (history start ops).Genuine W' s.store a) : Recorded start ops (past ++ [op]) W' := by
  subst hs
  refine ⟨hgood, fun a ha => ?_⟩
  rcases hresults a ha with ha | ha
  · exact (hr.results a ha).mono hW hgrows
  · exact ha

/-- The first activation of a program stands if the store is good. -/
theorem stands_root {s : Session} {p : List (Stmt Unit)} (hruns : start.Runs ops s p)
    (hgood : (history start ops).Good s.host W s.store) :
    (history start ops).Stands s.host W (s.rootActivation p) := by
  refine ⟨⟨s, p, hruns, rfl, .refl⟩, hgood, s.rootVisit p, rfl, ?_⟩
  exact ⟨⟨s, p, hruns, .refl⟩, .global, fun _ => .global⟩

/-- The only value in the frames of a new session is the native function that tells the time. -/
theorem find?_starting (time : Nat → Float) (limits : Limits) {f : FrameId} {n : String} {v : Value}
    (hv : (starting time limits).store.frames.find? f n = some v) : v = .native 0 0 := by
  rcases Frames.find?_put_cases _ hv with ⟨-, -, rfl⟩ | hv
  · rfl
  · rw [show Store.initial.frames = Frames.add {} {} from rfl, Frames.find?_add] at hv
    split at hv <;> cases hv

/-- There are no instances in a new session. -/
theorem fields_starting (time : Nat → Float) (limits : Limits) {f : FrameId} {n : String} {v : Value} :
    (starting time limits).store.fields.find? f n ≠ some v := by
  intro hv
  have hlt := Frames.lt_of_find? _ hv
  exact absurd hlt (Nat.not_lt_zero f)

/-- In a new session all is in order. -/
theorem recorded_starting (time : Nat → Float) (limits : Limits) (ops : List Operation) :
    Recorded (starting time limits) ops [] [none] := by
  refine ⟨⟨rfl, rfl, rfl, ?_, ?_, ?_, ?_⟩, fun a ha => by cases ha⟩
  · intro f n v hv
    rw [find?_starting time limits hv]
    trivial
  · exact fun f n v hv => absurd hv (fields_starting time limits)
  · intro f n o _ ho
    obtain ⟨hf, ho⟩ := List.getElem?_eq_some_iff.1 ho
    have hf : f = 0 := Nat.lt_one_iff.1 hf
    subst hf
    cases ho
  · exact fun v hv => absurd hv (Array.not_mem_empty v)

/-- A native function that is registered keeps everything in order. -/
theorem Recorded.registerNative {name : String} {arity : Nat} {native : Native}
    (hr : Recorded start ops past W) :
    Recorded start ops (past ++ [.registerNative name arity native]) W := by
  obtain ⟨hgood, hresults⟩ := hr
  generalize hs : start.performAll past = s at hgood hresults
  -- A native function is no closure, so it is genuine at any time, and the global frame may bind any name.
  have hname : (history start ops).Later s.host W s.store W
      (s.store.withName globalFrame name (.native s.natives.size arity)) fun _ _ => True := by
    refine .withName hgood hgood.global_lt (absurd rfl) trivial (fun o ho => ?_) fun _ => .inr trivial
    rw [hgood.global] at ho
    cases ho
  have hafter := hname.good
  refine Recorded.step (s := s.registerNative name arity native) ⟨hs ▸ hgood, hs ▸ hresults⟩ ?_
    List.prefix_rfl ?_ ?_ ?_
  · rw [performAll_append, hs]
    rfl
  · rw [hs]
    exact hname.grows
  · exact ⟨rfl, hafter.size, hafter.global, hafter.values, hafter.fields, hafter.declared, hafter.shown⟩
  · exact fun a ha => .inl (hs ▸ ha)

/-- Running an accepted text keeps everything in order. -/
theorem Recorded.execute {text : String} {p : List (Stmt Unit)} (hr : Recorded start ops past W)
    (hop : past ++ [op] <+: ops) (htext : op.text? = some text)
    (haccepts : (start.performAll past).Accepts text p)
    (hperform : (start.performAll past).perform op = ((start.performAll past).execute text).1) :
    ∃ W', Recorded start ops (past ++ [op]) W' := by
  have hruns : start.Runs ops (start.performAll past) p := ⟨past, op, text, hop, htext, rfl, haccepts⟩
  have hleads := (stands_root hruns hr.good).runProgram
  have hafter := execute_of_run haccepts
  have hsession := performAll_append start past op
  -- The run ends or it stops; what it leaves is in order either way.
  rw [hperform] at hsession
  cases hrun : Treewalk.runProgram (start.performAll past).host (start.performAll past).limits.run
      (resolveProgram (start.performAll past).limits.tree p).value (start.performAll past).store with
  | ok v store =>
    rw [hrun] at hleads hafter
    obtain ⟨W', hl, hv⟩ := hleads
    obtain ⟨log, line, heq⟩ := hafter
    rw [heq] at hsession
    refine ⟨W', hr.step hsession.symm hl.worlds hl.grows hl.good fun a ha => ?_⟩
    exact (List.mem_append.1 ha).imp_right fun ha => hv a (Option.mem_toList.1 ha)
  | error stop store =>
    rw [hrun] at hleads hafter
    obtain ⟨-, W', hl⟩ := hleads
    obtain ⟨log, line, heq⟩ := hafter
    rw [heq] at hsession
    exact ⟨W', hr.step hsession.symm hl.worlds hl.grows hl.good fun a ha => .inl ha⟩

/-- All is in order after every operation on a new session. -/
theorem recorded (time : Nat → Float) (limits : Limits) (hpast : past <+: ops) :
    ∃ W, Recorded (starting time limits) ops past W := by
  induction past using List.reverseRecOn with
  | nil => exact ⟨[none], recorded_starting time limits ops⟩
  | append_singleton past op ih =>
    obtain ⟨W, hr⟩ := ih ((List.prefix_append past [op]).trans hpast)
    -- A text that is run, a native function, or an operation that leaves the store alone.
    rcases perform_cases ((starting time limits).performAll past) op with
      ⟨text, p, htext, haccepts, hperform⟩ | ⟨name, arity, native, rfl⟩ | ⟨hstore, hhost, -, hresults⟩
    · exact hr.execute hpast htext haccepts hperform
    · exact ⟨W, hr.registerNative⟩
    · refine ⟨W, hr.step (performAll_append _ past op).symm List.prefix_rfl ?_ ?_ ?_⟩
      · rw [hstore]
        exact .refl _
      · rw [hstore, hhost]
        exact hr.good
      · exact fun a ha => .inl (hresults a ha)

/-- Every activation that happens in the course of operations on a new session stands. -/
theorem stands {time : Nat → Float} {limits : Limits} {host : Host} {a : Activation}
    (ha : (history (starting time limits) ops).happens host a) :
    ∃ W, (history (starting time limits) ops).Stands host W a := by
  obtain ⟨s, p, hruns, rfl, hleads⟩ := ha
  obtain ⟨past, op, text, hop, htext, rfl, haccepts⟩ := hruns
  obtain ⟨W, hr⟩ := recorded time limits ((List.prefix_append past [op]).trans hop)
  have hroot := stands_root ⟨past, op, text, hop, htext, rfl, haccepts⟩ hr.good
  obtain ⟨W', -, -, hstands⟩ := hroot.leadsTo hleads
  exact ⟨W', hstands⟩

/-- Everything that happens in a history stands. -/
theorem allStand (time : Nat → Float) (limits : Limits) (ops : List Operation) :
    (history (starting time limits) ops).AllStand := fun _ _ ha => stands ha

/-! ## Single units -/

/-- A single unit runs the program of its text. -/
theorem runs_execute {start s : Session} {text : String} {p q : List (Stmt Unit)}
    (hq : start.Accepts text q) : start.Runs [.execute text] s p ↔ s = start ∧ p = q := by
  constructor
  · rintro ⟨past, op, text', ⟨later, hlater⟩, htext, rfl, haccepts⟩
    cases past with
    | nil =>
      obtain rfl := (List.cons.inj hlater).1
      cases htext
      exact ⟨rfl, haccepts.unique hq⟩
    | cons op' past => cases past <;> cases hlater
  · rintro ⟨rfl, rfl⟩
    exact ⟨[], .execute text, text, List.prefix_rfl, rfl, rfl, hq⟩

/-- A function that gives a function which reads its parameter, and a call of what it gives. -/
def readInClosure : List (Stmt Unit) :=
  [.function ⟨"f", 1⟩ ⟨[⟨"a", 1⟩],
      [.function ⟨"g", 1⟩ ⟨[], [.return 1 (some (.variable ⟨"a", 1⟩ ()))]⟩,
        .return 1 (some (.variable ⟨"g", 1⟩ ()))]⟩,
    .print (.call (.call (.variable ⟨"f", 1⟩ ()) 1 [.literal (.boolean true)]) 1 [])]

/-- The text of `readInClosure` is accepted. -/
theorem accepts_readInClosure : (starting 0 .standard).Accepts
    "fn f(a)\x7bfn g()\x7breturn a;\x7dreturn g;\x7dprint f(true)();" readInClosure := by
  refine ⟨by decide +kernel, ?_, by decide +kernel⟩
  -- The tokens first: a function in a function, which is returned and called.
  have htokens : (Scan.ofText "fn f(a)\x7bfn g()\x7breturn a;\x7dreturn g;\x7dprint f(true)();"
      (starting 0 .standard).line).tokens =
        [Grammar.word .fn 1, Grammar.ident ⟨"f", 1⟩, Grammar.sym .leftParen 1, Grammar.ident ⟨"a", 1⟩,
          Grammar.sym .rightParen 1, Grammar.sym .leftBrace 1, Grammar.word .fn 1,
          Grammar.ident ⟨"g", 1⟩, Grammar.sym .leftParen 1, Grammar.sym .rightParen 1,
          Grammar.sym .leftBrace 1, Grammar.word .return_ 1, Grammar.ident ⟨"a", 1⟩,
          Grammar.sym .semicolon 1, Grammar.sym .rightBrace 1, Grammar.word .return_ 1,
          Grammar.ident ⟨"g", 1⟩, Grammar.sym .semicolon 1, Grammar.sym .rightBrace 1,
          Grammar.word .print 1, Grammar.ident ⟨"f", 1⟩, Grammar.sym .leftParen 1,
          Grammar.word .true_ 1, Grammar.sym .rightParen 1, Grammar.sym .leftParen 1,
          Grammar.sym .rightParen 1, Grammar.sym .semicolon 1] := by decide +kernel
  rw [htokens]
  -- The derivation goes from the inside to the outside.
  have hinner : Grammar.Derives true 299 .routine
      [Grammar.sym .leftParen 1, Grammar.sym .rightParen 1, Grammar.sym .leftBrace 1,
        Grammar.word .return_ 1, Grammar.ident ⟨"a", 1⟩, Grammar.sym .semicolon 1,
        Grammar.sym .rightBrace 1] ⟨[], [.return 1 (some (.variable ⟨"a", 1⟩ ()))]⟩ :=
    .routine (d := 298) .none
      (.declarations (.statement (.return (.clause (.variable ⟨"a", 1⟩)))) .noDeclaration)
  have houter : Grammar.Derives true 300 .routine
      [Grammar.sym .leftParen 1, Grammar.ident ⟨"a", 1⟩, Grammar.sym .rightParen 1,
        Grammar.sym .leftBrace 1, Grammar.word .fn 1, Grammar.ident ⟨"g", 1⟩,
        Grammar.sym .leftParen 1, Grammar.sym .rightParen 1, Grammar.sym .leftBrace 1,
        Grammar.word .return_ 1, Grammar.ident ⟨"a", 1⟩, Grammar.sym .semicolon 1,
        Grammar.sym .rightBrace 1, Grammar.word .return_ 1, Grammar.ident ⟨"g", 1⟩,
        Grammar.sym .semicolon 1, Grammar.sym .rightBrace 1]
      ⟨[⟨"a", 1⟩], [.function ⟨"g", 1⟩ ⟨[], [.return 1 (some (.variable ⟨"a", 1⟩ ()))]⟩,
        .return 1 (some (.variable ⟨"g", 1⟩ ()))]⟩ :=
    .routine (d := 299) (.some (.one rfl) (by decide)) (.declarations (.function hinner)
      (.declarations (.statement (.return (.clause (.variable ⟨"g", 1⟩)))) .noDeclaration))
  have hcall : Grammar.Derives true 300 (.expression .call) [Grammar.ident ⟨"f", 1⟩,
        Grammar.sym .leftParen 1, Grammar.word .true_ 1, Grammar.sym .rightParen 1,
        Grammar.sym .leftParen 1, Grammar.sym .rightParen 1]
      (.call (.call (.variable ⟨"f", 1⟩ ()) 1 [.literal (.boolean true)]) 1 []) :=
    .callNothing (l := 1) (.call (d := 299) (l := 1) (.tighter (.atom rfl)) (.lastArgument (.of_atom rfl))
      (by decide))
  exact Grammar.reads_of_derives (.declarations (.function houter)
    (.declarations (.statement (.print (.of_call hcall))) .noDeclaration))

end Session

end Treewalk
