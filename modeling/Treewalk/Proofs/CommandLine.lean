import Treewalk.CommandLine
import Treewalk.Proofs.Session.Verdict

/-!
# Exit codes

A command line that runs a file ends as the unit does that the file is: with 64 and no output if there
are static errors, with 70 and one line among the errors if there is a runtime error, and with 0 if and
only if there is nothing among the errors.
-/

namespace Treewalk

open Session

/-! ## Runtime errors -/

/-- The runtime error of a new session is reported on one line: what stops a run fits on a line, and the
native function of a new session stops none. -/
theorem Session.oneLine_of_stopped (time : Nat → Float) (limits : Limits) {text : String}
    {p : List (Stmt Unit)} {stop : Stop} {store : Store} {e : LanguageError}
    (h : (starting time limits).Accepts text p)
    (hrun : runProgram (starting time limits).host (starting time limits).limits.run
      (resolveProgram (starting time limits).limits.tree p).value (starting time limits).store =
        .error stop store) (hstop : stopped stop = .inl e) : '\n' ∉ e.diagnostic.text.toList := by
  have hruns := (runs_execute h).2 ⟨rfl, rfl⟩
  have hleads := (stands_root hruns (recorded_starting time limits [.execute text]).good).runProgram
  have hexplains : (starting time limits).host.Explains stop := by
    change History.Leads _ _ _ _ _ _ (runProgram (starting time limits).host _ _ _) at hleads
    rw [hrun] at hleads
    exact hleads.1
  have hcontext : '\n' ∉ e.diagnostic.context.toList := by
    show '\n' ∉ (if e.internal then " [internal]" else "").toList
    cases e.internal <;> decide
  refine Diagnostic.text_oneLine hcontext ?_
  cases stop with
  | fault line f =>
    cases hstop
    rcases hexplains with hf | ⟨i, native, s₁, s₂, message, internal, hnative, -, hfails⟩
    · exact hf
    · -- The clock is the only native function, and it gives a number at once.
      obtain ⟨hlt, rfl⟩ := Array.getElem?_eq_some_iff.1 hnative
      obtain rfl : i = 0 := Nat.lt_one_iff.1 hlt
      cases hfails.eq_give
  | overflow line =>
    cases hstop
    show '\n' ∉ "stack overflow".toList
    decide
  | missing name => cases hstop
  | unfinished => cases hstop
  | raised kind text => cases hstop

namespace CommandLine

/-- A command line asks to run a file, the file can be opened, and this is its text. -/
structure RunsText (files : String → Option (List UInt8)) (arguments : List String) (text : String) :
    Prop where
  request : ∃ r path bytes, plan arguments = .serve r ∧ r.file = some path ∧ r.tokens = false ∧
    r.ast = false ∧ '\x00' ∉ path.toList ∧ files path = some bytes ∧ fileText bytes = .ok text

variable {time : Nat → Float} {text input : String} {arguments : List String}
  {files : String → Option (List UInt8)} {r : UnitResult} {code : Nat}

/-- Arguments that lead to a text have it run as it is. -/
theorem run_eq_runText (h : RunsText files arguments text) :
    run time files input arguments = runText time text := by
  obtain ⟨⟨file, tokens, ast⟩, path, bytes, hplan, rfl, rfl, rfl, hpath, hfile, htext⟩ := h.request
  unfold run
  rw [hplan]
  simp only
  unfold serveFile
  rw [if_neg hpath, hfile]
  simp only [htext]
  rfl

/-- How a command ends if its unit comes to an end. -/
theorem runText_of_ok (hr : ((Session.new time).execute text).2 = .ok r) :
    runText time text = ⟨some (exitCode ((Session.new time).execute text).1.log),
      Shell.printedSince (Session.new time) ((Session.new time).execute text).1,
      ((Session.new time).execute text).1.log.text, none⟩ := by
  unfold runText
  simp only [hr]
  rfl

/-- How a command ends if its unit is interrupted: the boundary around the work reports the interrupt and
takes no flag up. -/
theorem runText_of_interrupt (hr : ((Session.new time).execute text).2 = .error .interrupt) :
    runText time text = ⟨some 0,
      Shell.printedSince (Session.new time) ((Session.new time).execute text).1,
      "error: keyboard interrupt\n", none⟩ := by
  obtain ⟨stop, store, -, hexecute⟩ := exists_escape_of_error hr
  unfold runText
  simp only [hexecute]
  rfl

/-- A crash leaves the command, whatever the log. -/
theorem code_endOfWork_crash (log : Log) (out : String) (c : Crash) :
    (endOfWork log out (some (.crash c))).code = none := by
  unfold endOfWork Log.guard
  simp only
  rcases log.throw (Log.unknown c) with ⟨log', _ | escape⟩ <;> rfl

/-- A crash leaves the command, so a command that returns an exit code ran a unit that came to an end or
was interrupted. -/
theorem ok_or_interrupt_of_code (hcode : (runText time text).code = some code) :
    (∃ r, ((Session.new time).execute text).2 = .ok r) ∨
      ((Session.new time).execute text).2 = .error .interrupt := by
  cases hr : ((Session.new time).execute text).2 with
  | ok r => exact .inl ⟨r, rfl⟩
  | error escape =>
    obtain ⟨stop, store, hstop, -⟩ := exists_escape_of_error hr
    -- Faults and overflows are reported, and do not leave the session.
    cases stop with
    | fault line f => cases hstop
    | overflow line => cases hstop
    | unfinished =>
      cases hstop
      exact .inr rfl
    | missing name | raised kind text =>
      cases hstop
      unfold runText at hcode
      simp only [hr, code_endOfWork_crash] at hcode
      cases hcode

/-- What is shown of a runtime error is one line. -/
theorem oneLine_of_endsRuntime (hr : ((Session.new time).execute text).2 = .ok r)
    (h : EndsRuntime (Session.new time) ((Session.new time).execute text).1 r) :
    ∃ line : String, '\n' ∉ line.toList ∧
      ((Session.new time).execute text).1.log.text = line ++ "\n" := by
  -- What became of the text says how it ended, and only a run that stopped with a fault ends so.
  by_cases haccepts : ∃ p, (Session.new time).Accepts text p
  · obtain ⟨p, hp⟩ := haccepts
    cases hrun : runProgram (Session.new time).host (Session.new time).limits.run
        (resolveProgram (Session.new time).limits.tree p).value (Session.new time).store with
    | ok v store =>
      have hwell := endsWell_of_run hp hrun hr
      cases h.hadRuntimeError.symm.trans hwell.hadRuntimeError
    | error stop store =>
      cases hstop : stopped stop with
      | inl e =>
        refine ⟨e.diagnostic.text, oneLine_of_stopped time .standard hp hrun hstop, ?_⟩
        rw [execute_of_stopped hp hrun hstop]
        exact Log.text_of_singleton rfl
      -- A run that an exception of the host ended gives no result at all.
      | inr escape =>
        rw [execute_of_escape hp hrun hstop] at hr
        cases hr
  · have hstatic := endsStatic_of_not_accepts haccepts hr
    cases h.hadError.symm.trans hstatic.hadError

/-- A program whose unit ends with static errors printed nothing. -/
theorem printedSince_of_endsStatic {s s' : Session} (h : EndsStatic s s' r) :
    Shell.printedSince s s' = "" := by
  unfold Shell.printedSince Session.printed
  rw [h.store, ← Array.length_toList, List.drop_length]
  rfl

/-- Nothing is reported if and only if the exit code is 0. -/
theorem exitCode_eq_zero {s s' : Session} (hs : s.log.diagnostics.toList = [])
    (h : EndsStatic s s' r ∨ EndsRuntime s s' r ∨ EndsWell s text s' r) :
    exitCode s'.log = 0 ↔ s'.log.text = "" := by
  rw [Log.text_eq_empty]
  unfold exitCode
  -- The code is zero if neither flag is up, and a flag goes up with each report.
  rcases h with h | h | h
  · obtain ⟨new, hne, hnew⟩ := h.reported
    rw [h.hadError, hnew, hs]
    simp [staticErrorCode, hne]
  · obtain ⟨d, hd⟩ := h.reported
    rw [h.hadError, h.hadRuntimeError, hd]
    simp [runtimeErrorCode]
  · rw [h.hadError, h.hadRuntimeError, h.reported, hs]
    simp

/-- A unit that comes to an end does so in exactly one of three ways: with static errors, with a runtime
error, or well. A command line that runs a file returns 64 and no output in the first case, 70 and one
line among the errors in the second, and 0 if and only if there is nothing among the errors. The boundary
around the work stops one thing more: if the unit is interrupted, the command line returns 0 as well, and
the interrupt is the one line among the errors. -/
theorem unit_ends_one_way :
    (∀ (s : Session) (text : String) (r : UnitResult), (s.execute text).2 = .ok r →
      (EndsStatic s (s.execute text).1 r ∧ ¬EndsRuntime s (s.execute text).1 r ∧
          ¬EndsWell s text (s.execute text).1 r) ∨
        (¬EndsStatic s (s.execute text).1 r ∧ EndsRuntime s (s.execute text).1 r ∧
          ¬EndsWell s text (s.execute text).1 r) ∨
        (¬EndsStatic s (s.execute text).1 r ∧ ¬EndsRuntime s (s.execute text).1 r ∧
          EndsWell s text (s.execute text).1 r)) ∧
    (∀ time files input arguments text code, RunsText files arguments text →
      (run time files input arguments).code = some code →
      (∃ r, ((Session.new time).execute text).2 = .ok r ∧
        (EndsStatic (Session.new time) ((Session.new time).execute text).1 r →
          code = 64 ∧ (run time files input arguments).out = "") ∧
        (EndsRuntime (Session.new time) ((Session.new time).execute text).1 r →
          code = 70 ∧ ∃ line : String, '\n' ∉ line.toList ∧
            (run time files input arguments).err = line ++ "\n") ∧
        (code = 0 ↔ (run time files input arguments).err = "")) ∨
      (((Session.new time).execute text).2 = .error .interrupt ∧ code = 0 ∧
        (run time files input arguments).err = "error: keyboard interrupt\n")) := by
  refine ⟨fun s text r hr => ?_, fun time files input arguments text code hruns hcode => ?_⟩
  · -- The flags of the log tell the three ways apart.
    rcases execute_ends hr with h | h | h
    · exact .inl ⟨h, fun h' => (by cases h.hadError.symm.trans h'.hadError),
        fun h' => by cases h.hadError.symm.trans h'.hadError⟩
    · exact .inr (.inl ⟨fun h' => (by cases h.hadError.symm.trans h'.hadError), h,
        fun h' => by cases h.hadRuntimeError.symm.trans h'.hadRuntimeError⟩)
    · exact .inr (.inr ⟨fun h' => (by cases h.hadError.symm.trans h'.hadError),
        fun h' => (by cases h.hadRuntimeError.symm.trans h'.hadRuntimeError), h⟩)
  · rw [run_eq_runText hruns] at hcode ⊢
    rcases ok_or_interrupt_of_code hcode with ⟨r, hr⟩ | hr
    · rw [runText_of_ok hr] at hcode ⊢
      obtain rfl := Option.some.inj hcode
      refine .inl ⟨r, hr, fun h => ⟨?_, printedSince_of_endsStatic h⟩,
        fun h => ⟨?_, oneLine_of_endsRuntime hr h⟩, exitCode_eq_zero rfl (execute_ends hr)⟩
      · unfold exitCode
        rw [h.hadError]
        rfl
      · unfold exitCode
        rw [h.hadError, h.hadRuntimeError]
        rfl
    · rw [runText_of_interrupt hr] at hcode ⊢
      exact .inr ⟨hr, (Option.some.inj hcode).symm, rfl⟩

/-- The bytes of a file with a function that prints and then calls what cannot be called. -/
def stoppingFile : List UInt8 :=
  "fn f(a)\x7bprint a;return a();\x7dprint f(true);".toUTF8.toList

/-- A runtime error in a function ends the command with 70, what was printed, and one line among the
errors. -/
theorem unit_ends_one_way_stoppingFile :
    (run 0 (fun _ => some stoppingFile) "" ["a"]).code = some 70 ∧
      (run 0 (fun _ => some stoppingFile) "" ["a"]).out = "true\n" ∧
      ∃ line : String, '\n' ∉ line.toList ∧
        (run 0 (fun _ => some stoppingFile) "" ["a"]).err = line ++ "\n" := by
  have hruns : RunsText (fun _ => some stoppingFile) ["a"]
      "fn f(a)\x7bprint a;return a();\x7dprint f(true);" :=
    ⟨⟨some "a", false, false⟩, "a", stoppingFile, by decide +kernel, rfl, rfl, rfl, by decide +kernel,
      rfl, by decide +kernel⟩
  have hcode : (run 0 (fun _ => some stoppingFile) "" ["a"]).code = some 70 := by decide +kernel
  have hflag : ((Session.new 0).execute
      "fn f(a)\x7bprint a;return a();\x7dprint f(true);").1.log.hadRuntimeError = true := by
    decide +kernel
  -- Of the ways to end, the flag leaves only the one with a runtime error.
  refine ⟨hcode, by decide +kernel, ?_⟩
  obtain ⟨hways, hends⟩ := unit_ends_one_way
  obtain ⟨r, hr, -, hruntime, -⟩ | ⟨-, hzero, -⟩ := hends 0 _ "" _ _ 70 hruns hcode
  · rcases hways _ _ r hr with ⟨h, -⟩ | ⟨-, h, -⟩ | ⟨-, -, h⟩
    · cases h.hadRuntimeError.symm.trans hflag
    · exact (hruntime h).2
    · cases h.hadRuntimeError.symm.trans hflag
  · cases hzero

/-- The bytes of a file with a loop that has no end. -/
def endlessFile : List UInt8 := "while(true)nil;".toUTF8.toList

/-- The text of an endless loop is accepted. -/
theorem accepts_endless : (Session.new 0).Accepts "while(true)nil;"
    [.while (.literal (.boolean true)) (.expression (.literal .nil))] := by
  refine ⟨by decide +kernel, ?_, by decide +kernel⟩
  have htokens : (Scan.ofText "while(true)nil;" (Session.new 0).line).tokens =
      [Grammar.word .while_ 1, Grammar.sym .leftParen 1, Grammar.word .true_ 1,
        Grammar.sym .rightParen 1, Grammar.word .nil 1, Grammar.sym .semicolon 1] := by decide +kernel
  rw [htokens]
  -- The derivation: a condition that is always true, and a body that does nothing.
  have hcondition : Grammar.Derives true 300 (.expression .assignment) [Grammar.word .true_ 1]
      (.literal (.boolean true)) := .of_atom rfl
  have hbody : Grammar.Derives true 299 (.statement false)
      [Grammar.word .nil 1, Grammar.sym .semicolon 1] (.expression (.literal .nil)) :=
    .expression (.of_atom (t := Grammar.word .nil 1) rfl)
  exact Grammar.reads_of_derives
    (.declarations (.statement (.while hcondition hbody)) .noDeclaration)

/-- The program with the endless loop is not left, wherever it is run. -/
theorem runProgram_endless (host : Host) (d : Nat) (s : Store) :
    ∃ s', runProgram host (d + 3) [.while (.literal (.boolean true)) (.expression (.literal .nil))] s =
      .error .unfinished s' := by
  have hround : ∀ s, Eval.round (evaluate host (d + 2) (.outermost globalFrame) (.literal (.boolean true)))
      (Treewalk.execute host (d + 2) (.outermost globalFrame) (.expression (.literal .nil))) s =
        .ok (some .normal) s := fun _ => rfl
  obtain ⟨s', hloop⟩ := Eval.loop_of_rounds (fun s => ⟨s, hround s⟩) host.rounds s
  exact ⟨s', Eval.bind_of_error (Eval.bind_of_error hloop)⟩

/-- A command line that runs a file with an endless loop returns 0 once it is interrupted, and there is
something among the errors. -/
theorem interrupted_returns_zero :
    RunsText (fun _ => some endlessFile) ["a"] "while(true)nil;" ∧
      (run 0 (fun _ => some endlessFile) "" ["a"]).code = some 0 ∧
      (run 0 (fun _ => some endlessFile) "" ["a"]).err ≠ "" := by
  have hruns : RunsText (fun _ => some endlessFile) ["a"] "while(true)nil;" :=
    ⟨⟨some "a", false, false⟩, "a", endlessFile, by decide +kernel, rfl, rfl, rfl, by decide +kernel,
      rfl, by decide +kernel⟩
  -- The loop runs out of rounds whatever their number is, and so the host ends it.
  obtain ⟨store, hstops⟩ := runProgram_endless (Session.new 0).host 447 (Session.new 0).store
  have hrun : runProgram (Session.new 0).host (Session.new 0).limits.run
      (resolveProgram (Session.new 0).limits.tree
        [.while (.literal (.boolean true)) (.expression (.literal .nil))]).value
      (Session.new 0).store = .error .unfinished store := hstops
  have hexecute := execute_of_escape accepts_endless hrun rfl
  rw [run_eq_runText hruns, runText_of_interrupt (by rw [hexecute])]
  exact ⟨hruns, rfl, by decide⟩

end CommandLine

end Treewalk
