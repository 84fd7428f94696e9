import Treewalk.Proofs.Session.History

/-!
# How a unit ends

A unit ends in one of three ways. With static errors nothing is run, and all that changes is the log and
the line (`EndsStatic`). With a runtime error one diagnostic is reported (`EndsRuntime`). If all is well
nothing is reported, and a value is kept if the last statement is an expression (`EndsWell`). The flags of
the log tell which it is, whatever they were before.
-/

namespace Treewalk

/-! ## Values of programs -/

/-- Whether the last statement of a program is an expression. -/
def endsWithExpression {ρ : Type} (p : List (Stmt ρ)) : Prop := ∃ x, p.getLast? = some (.expression x)

/-- Only an expression is resolved to an expression. -/
theorem Stmt.resolve_eq_expression {c : Scoping} {t : Stmt Unit} {x : Expr Address}
    (h : (t.resolve c).value = .expression x) : ∃ y, t = .expression y := by
  cases t with
  | expression y => exact ⟨y, rfl⟩
  | _ => cases h

/-- Marking the names of a program does not change what its last statement is. -/
theorem endsWithExpression_resolveList (c : Scoping) (p : List (Stmt Unit)) :
    endsWithExpression (Stmt.resolveList c p).value ↔ endsWithExpression p := by
  unfold endsWithExpression
  induction p generalizing c with
  | nil => simp [Stmt.resolveList]
  | cons t ts ih =>
    -- The last statement of a list counts, and resolving goes from the first to it.
    cases ts with
    | nil =>
      simp only [Stmt.resolveList, Resolved.value_bind, Resolved.value_pure, List.getLast?_singleton, Option.some.injEq]
      constructor
      · rintro ⟨x, hx⟩
        exact Stmt.resolve_eq_expression hx
      · rintro ⟨y, rfl⟩
        exact ⟨_, rfl⟩
    | cons t' ts' =>
      have hlater := ih (c.after t)
      rw [List.getLast?_cons_cons]
      refine Iff.trans ?_ hlater
      simp only [Stmt.resolveList, Resolved.value_bind, Resolved.value_pure, List.getLast?_cons_cons]

/-- A statement of a program has a value if and only if it is an expression. -/
theorem runStatement_isSome {host : Host} {d : Nat} {t : Stmt Address} {s s' : Store}
    {r : Option Value} (h : runStatement host d t s = .ok r s') :
    r.isSome ↔ ∃ x, t = .expression x := by
  cases t with
  | expression x =>
    obtain ⟨v, -, rfl⟩ := Eval.map_eq_ok.1 h
    exact ⟨fun _ => ⟨x, rfl⟩, fun _ => rfl⟩
  | _ =>
    obtain ⟨outcome, s₁, -, hr⟩ := Eval.bind_eq_ok.1 h
    cases hr
    -- Other statements have no value.
    constructor
    · intro hr
      cases hr
    · rintro ⟨x, hx⟩
      cases hx

/-- A program has a value exactly if it ends with an expression; without statements it keeps the value of
before. -/
theorem foldlM_runStatement_isSome {host : Host} {d : Nat} {p : List (Stmt Address)}
    {last r : Option Value} {s s' : Store}
    (h : p.foldlM (fun _ t => runStatement host d t) last s = .ok r s') :
    (p = [] ∧ r = last) ∨ (p ≠ [] ∧ (r.isSome ↔ endsWithExpression p)) := by
  induction p generalizing last s with
  | nil =>
    cases h
    exact .inl ⟨rfl, rfl⟩
  | cons t ts ih =>
    rw [List.foldlM_cons] at h
    obtain ⟨r₁, s₁, ht, hts⟩ := Eval.bind_eq_ok.1 h
    refine .inr ⟨List.cons_ne_nil _ _, ?_⟩
    -- The value is that of the last statement, whatever the ones before it had.
    rcases ih hts with ⟨rfl, rfl⟩ | ⟨hne, hiff⟩
    · refine (runStatement_isSome ht).trans ?_
      simp [endsWithExpression]
    · obtain ⟨t', ts', rfl⟩ := List.exists_cons_of_ne_nil hne
      rw [hiff]
      simp [endsWithExpression]

/-- A program has a value if and only if its last statement is an expression. -/
theorem runProgram_isSome {host : Host} {d : Nat} {p : List (Stmt Address)} {s s' : Store}
    {r : Option Value} (h : runProgram host d p s = .ok r s') : r.isSome ↔ endsWithExpression p := by
  rcases foldlM_runStatement_isSome h with ⟨rfl, rfl⟩ | ⟨-, hiff⟩
  · simp [endsWithExpression]
  · exact hiff

namespace Session

/-- A unit ends with static errors: nothing was run. -/
structure EndsStatic (s s' : Session) (r : UnitResult) : Prop where
  result : r = .error
  hadError : s'.log.hadError = true
  hadRuntimeError : s'.log.hadRuntimeError = false
  reported : ∃ new, new ≠ [] ∧ s'.log.diagnostics.toList = s.log.diagnostics.toList ++ new
  store : s'.store = s.store
  results : s'.results = s.results

/-- A unit ends with a runtime error. -/
structure EndsRuntime (s s' : Session) (r : UnitResult) : Prop where
  result : r = .error
  hadError : s'.log.hadError = false
  hadRuntimeError : s'.log.hadRuntimeError = true
  reported : ∃ d, s'.log.diagnostics.toList = s.log.diagnostics.toList ++ [d]
  results : s'.results = s.results

/-- A unit ends well: its program was run, and its value is kept if it has one. -/
structure EndsWell (s : Session) (text : String) (s' : Session) (r : UnitResult) : Prop where
  hadError : s'.log.hadError = false
  hadRuntimeError : s'.log.hadRuntimeError = false
  reported : s'.log.diagnostics = s.log.diagnostics
  result : ∃ p, s.Accepts text p ∧
    ((¬endsWithExpression p ∧ r = .noValue ∧ s'.results = s.results) ∨
      (endsWithExpression p ∧ ∃ v, r = .value v ∧ s'.results = s.results ++ [v]))

variable {s : Session} {text : String} {p : List (Stmt Unit)} {r : UnitResult}

/-- A text that is not accepted ends with static errors. -/
theorem endsStatic_of_not_accepts (h : ¬∃ p, s.Accepts text p)
    (hr : (s.execute text).2 = .ok r) : EndsStatic s (s.execute text).1 r := by
  obtain ⟨log, line, new, hexecute, hreports, hup⟩ := execute_of_not_accepts h
  rw [hexecute] at hr ⊢
  refine ⟨(Except.ok.inj hr).symm, hup, hreports.hadRuntimeError, ⟨new, ?_, hreports.diagnostics⟩, rfl,
    rfl⟩
  rintro rfl
  cases hup.symm.trans hreports.hadError

/-- A unit with which nothing is wrong is run, and ends well unless the run stops. -/
theorem endsWell_of_run {v : Option Value} {store : Store} (h : s.Accepts text p)
    (hrun : runProgram s.host s.limits.run (resolveProgram s.limits.tree p).value s.store = .ok v store)
    (hr : (s.execute text).2 = .ok r) : EndsWell s text (s.execute text).1 r := by
  have hsome := (runProgram_isSome hrun).trans (endsWithExpression_resolveList _ p)
  rw [execute_eq h, hrun] at hr ⊢
  cases v with
  | none =>
    refine ⟨rfl, rfl, rfl, p, h, .inl ⟨fun hp => ?_, (Except.ok.inj hr).symm, rfl⟩⟩
    cases hsome.2 hp
  | some v => exact ⟨rfl, rfl, rfl, p, h, .inr ⟨hsome.1 rfl, v, (Except.ok.inj hr).symm, rfl⟩⟩

/-- A run that stops with an error of the language ends its unit. -/
theorem execute_of_stopped {stop : Stop} {store : Store} {e : LanguageError} (h : s.Accepts text p)
    (hrun : runProgram s.host s.limits.run (resolveProgram s.limits.tree p).value s.store =
      .error stop store) (hstop : stopped stop = .inl e) : s.execute text =
      ({ s.ready text with store := store, log := s.log.reset.runtimeError e }, .ok .error) := by
  rw [execute_eq h, hrun]
  unfold conclude
  simp only [hstop]
  rfl

/-- Any other stop leaves the session. -/
theorem execute_of_escape {stop : Stop} {store : Store} {escape : Escape} (h : s.Accepts text p)
    (hrun : runProgram s.host s.limits.run (resolveProgram s.limits.tree p).value s.store =
      .error stop store) (hstop : stopped stop = .inr escape) : s.execute text =
      ({ s.ready text with store := store }, .error escape) := by
  rw [execute_eq h, hrun]
  unfold conclude
  simp only [hstop]
  rfl

/-- What leaves the session is what stops the run of an accepted text. -/
theorem exists_escape_of_error {escape : Escape} (hr : (s.execute text).2 = .error escape) :
    ∃ stop store, stopped stop = .inr escape ∧
      s.execute text = ({ s.ready text with store := store }, .error escape) := by
  -- A text that is not accepted has a result, and so has one that runs to its end or into a fault.
  by_cases h : ∃ p, s.Accepts text p
  · obtain ⟨p, hp⟩ := h
    cases hrun : runProgram s.host s.limits.run (resolveProgram s.limits.tree p).value s.store with
    | ok v store =>
      rw [execute_eq hp, hrun] at hr
      cases v <;> cases hr
    | error stop store =>
      cases hstop : stopped stop with
      | inl e =>
        rw [execute_of_stopped hp hrun hstop] at hr
        cases hr
      | inr escape' =>
        have hexecute := execute_of_escape hp hrun hstop
        rw [hexecute] at hr
        cases hr
        exact ⟨stop, store, hstop, hexecute⟩
  · obtain ⟨log, line, new, hexecute, -⟩ := execute_of_not_accepts h
    rw [hexecute] at hr
    cases hr

/-- An accepted text whose run stops ends with a runtime error, and leaves what it had done. -/
theorem endsRuntime_of_stopped {stop : Stop} {store : Store} (h : s.Accepts text p)
    (hrun : runProgram s.host s.limits.run (resolveProgram s.limits.tree p).value s.store =
      .error stop store) (hr : (s.execute text).2 = .ok r) : EndsRuntime s (s.execute text).1 r := by
  cases hstop : stopped stop with
  | inl e =>
    rw [execute_of_stopped h hrun hstop] at hr ⊢
    exact ⟨(Except.ok.inj hr).symm, rfl, rfl, ⟨_, Array.toList_push⟩, rfl⟩
  | inr escape =>
    rw [execute_of_escape h hrun hstop] at hr
    cases hr

/-- A unit that comes to an end does so with static errors, with a runtime error, or well. -/
theorem execute_ends (hr : (s.execute text).2 = .ok r) :
    EndsStatic s (s.execute text).1 r ∨ EndsRuntime s (s.execute text).1 r ∨
      EndsWell s text (s.execute text).1 r := by
  by_cases h : ∃ p, s.Accepts text p
  · obtain ⟨p, hp⟩ := h
    cases hrun : runProgram s.host s.limits.run (resolveProgram s.limits.tree p).value s.store with
    | ok v store => exact .inr (.inr (endsWell_of_run hp hrun hr))
    | error stop store => exact .inr (.inl (endsRuntime_of_stopped hp hrun hr))
  · exact .inl (endsStatic_of_not_accepts h hr)

end Session

end Treewalk
