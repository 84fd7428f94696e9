import Treewalk.Proofs.Scope.Path
import Treewalk.Proofs.Session.Account
import Treewalk.Proofs.Token.Append

/-!
# Running a program in parts

A text that ends with a line feed can be run as a unit of its own before what follows it
(`execute_append`). Each pass treats the two texts one after the other: scanning
(`Scan.ofPieces_append`), parsing (`Grammar.parseProgram_append`), resolving, which keeps no scope
between the statements of the outermost code (`resolveProgram_append`), and running
(`runProgram_append`). So the text put together ends as its second part does if the first part ends
well, and if the first part stops, the text put together stops there too.
-/

namespace Treewalk

/-! ## Running -/

/-- The result of a program does not depend on what stands before it, if it has a statement. -/
theorem runProgram_append (host : Host) (depth : Nat) (p : List (Stmt Address))
    {q : List (Stmt Address)} (hq : q ≠ []) (store : Store) :
    runProgram host depth (p ++ q) store =
      match runProgram host depth p store with
      | .ok _ store => runProgram host depth q store
      | .error stop store => .error stop store := by
  obtain ⟨s, q, rfl⟩ := List.exists_cons_of_ne_nil hq
  -- The second program begins with what the first one leaves, whatever value it had.
  unfold runProgram
  rw [List.foldlM_append]
  show EStateM.bind _ _ store = _
  unfold EStateM.bind
  split
  · next v store' h =>
    rw [h]
    rfl
  · next stop store' h =>
    rw [h]

namespace Session

/-- How a run ends does not depend on the store that it began with, nor on the results before it. -/
theorem conclude_of_eq {s s' : Session} (store : Store) (results : List Value)
    (h : s' = { s with store := store, results := results })
    (r : EStateM.Result Stop Store (Option Value)) :
    s'.conclude r = ({ (s.conclude r).1 with results := results }, (s.conclude r).2) := by
  subst h
  rcases r with ⟨v | _, store'⟩ | ⟨stop, store'⟩
  · rfl
  · rfl
  · unfold conclude
    simp only
    cases stopped stop with
    | inl e => rfl
    | inr escape => rfl

/-- A run leaves the results to `keepValue`. -/
theorem results_conclude (s : Session) (r : EStateM.Result Stop Store (Option Value)) :
    (s.conclude r).1.results = s.results :=
  (s.goesOn_conclude r).results

section

variable {s : Session} {a b : String} {p q : List (Stmt Unit)}
  (hend : a.toList.getLast? = some '\n') (hstrings : (Scan.ofText a s.line).PlainStrings)
  (ha : s.Accepts a p) {s' : Session} (hline : s'.line = lineAfter a (Scan.ofText a s.line))
  (hlimits : s'.limits = s.limits) (hb : s'.Accepts b q)
include hend hstrings ha hline

/-- The scan of the text put together. -/
theorem scan_append : Scan.ofText (a ++ b) s.line =
    (Scan.ofText a s.line).followedBy (Scan.ofText b s'.line) := by
  rw [Scan.ofText_append hend ha.faults hstrings, hline]
  unfold lineAfter
  rw [if_pos hend]

include hlimits hb in
/-- If nothing is wrong with the parts then nothing is wrong with the text put together. -/
theorem Accepts.append : s.Accepts (a ++ b) (p ++ q) := by
  have hscan := scan_append (b := b) hend hstrings ha hline
  refine ⟨?_, ?_, ?_⟩
  · rw [hscan]
    show _ ++ _ = []
    rw [ha.faults, hb.faults]
    rfl
  · rw [hscan]
    refine Grammar.parseProgram_append ha.parsed ?_
    rw [← hlimits]
    exact hb.parsed
  · rw [(resolveProgram_append _ _ _).2, ha.resolved, ← hlimits, hb.resolved]
    rfl

/-- After the text put together the next unit begins where it does after its second part. -/
theorem lineAfter_append (hne : b.toList ≠ []) :
    lineAfter (a ++ b) (Scan.ofText (a ++ b) s.line) = lineAfter b (Scan.ofText b s'.line) := by
  have hlast : (a ++ b).toList.getLast? = b.toList.getLast? := by
    rw [String.toList_append, List.getLast?_append]
    cases hb : b.toList.getLast? with
    | none => exact absurd (List.getLast?_eq_none_iff.1 hb) hne
    | some c => rfl
  unfold lineAfter
  rw [scan_append hend hstrings ha hline, hlast]
  rfl

end

/-- A text with a token has a character, and its program has a statement. -/
theorem Accepts.ne_nil {s : Session} {text : String} {p : List (Stmt Unit)} (h : s.Accepts text p)
    (htokens : (Scan.ofText text s.line).tokens ≠ []) :
    text.toList ≠ [] ∧ (resolveProgram s.limits.tree p).value ≠ [] := by
  constructor
  · intro hnil
    unfold Scan.ofText at htokens
    rw [hnil, pieces] at htokens
    exact htokens rfl
  -- A program without statements is derived from no tokens.
  · have hderives := Grammar.derives_of_reads h.parsed
    cases p with
    | nil => exact absurd hderives.eq_nil htokens
    | cons st p =>
      unfold resolveProgram
      rw [Stmt.resolveList]
      exact List.cons_ne_nil _ _

/-- A run that comes to its end ends a unit without an error. -/
theorem exists_conclude_ok (v : Option Value) (store : Store) :
    ∃ r, r ≠ .error ∧ ∀ s : Session, s.conclude (.ok v store) = ({ s with store := store }, .ok r) := by
  cases v with
  | none => exact ⟨.noValue, nofun, fun _ => rfl⟩
  | some v => exact ⟨.value v, nofun, fun _ => rfl⟩

/-- If the first part of a text comes to its end then the text put together ends as the second part
does after it. -/
theorem execute_append_of_ok {s s' : Session} {a b : String} {p q : List (Stmt Unit)} {v : Option Value}
    {store : Store} {results : List Value} (hend : a.toList.getLast? = some '\n')
    (hstrings : (Scan.ofText a s.line).PlainStrings) (ha : s.Accepts a p)
    (hs' : s' = { s.ready a with store := store, results := results }) (hb : s'.Accepts b q)
    (htokens : (Scan.ofText b s'.line).tokens ≠ [])
    (hrun : runProgram s.host s.limits.run (resolveProgram s.limits.tree p).value s.store =
      .ok v store) :
    s.execute (a ++ b) =
      ({ (s'.execute b).1 with results := s.results ++ valuesOf (s'.execute b).2 },
        (s'.execute b).2) := by
  have hline : s'.line = lineAfter a (Scan.ofText a s.line) := by rw [hs']; rfl
  have hlimits : s'.limits = s.limits := by rw [hs']; rfl
  have hhost : s'.host = s.host := by rw [hs']; rfl
  have hstore : s'.store = store := by rw [hs']
  obtain ⟨hb_text, hb_program⟩ := hb.ne_nil htokens
  rw [hlimits] at hb_program
  -- Once the second text is read, the session is the one that has read both of them.
  have hready : s'.ready b = { s.ready (a ++ b) with store := store, results := results } := by
    unfold ready
    rw [lineAfter_append hend hstrings ha hline hb_text, hs']
    rfl
  have hwhole := execute_eq (ha.append hend hstrings hline hlimits hb)
  rw [(resolveProgram_append _ _ _).1, runProgram_append _ _ _ hb_program, hrun] at hwhole
  have hpart := execute_eq hb
  rw [hlimits, hhost, hstore, conclude_of_eq store results hready] at hpart
  rw [hwhole, hpart, keepValue_eq, keepValue_eq, results_conclude]
  rfl

/-- If the first part of a text stops with a reported error then so does the text put together. -/
theorem execute_append_of_error {s s' : Session} {a b : String} {p q : List (Stmt Unit)} {stop : Stop}
    {store : Store} {e : LanguageError} (hend : a.toList.getLast? = some '\n')
    (hstrings : (Scan.ofText a s.line).PlainStrings) (ha : s.Accepts a p)
    (hline : s'.line = lineAfter a (Scan.ofText a s.line)) (hlimits : s'.limits = s.limits)
    (hb : s'.Accepts b q) (htokens : (Scan.ofText b s'.line).tokens ≠ [])
    (hrun : runProgram s.host s.limits.run (resolveProgram s.limits.tree p).value s.store =
      .error stop store)
    (hconclude : ∀ s : Session, s.conclude (.error stop store) =
      ({ s with store := store, log := s.log.runtimeError e }, .ok .error)) :
    s.execute (a ++ b) =
      ({ (s.execute a).1 with line := (s.execute (a ++ b)).1.line }, .ok .error) := by
  -- Both texts as one program stop where the first one stops, since the second is not empty.
  obtain ⟨-, hb_program⟩ := hb.ne_nil htokens
  rw [hlimits] at hb_program
  have hwhole := execute_eq (ha.append hend hstrings hline hlimits hb)
  rw [(resolveProgram_append _ _ _).1, runProgram_append _ _ _ hb_program, hrun] at hwhole
  simp only [hconclude] at hwhole
  rw [execute_eq ha, hrun, hconclude, hwhole]
  rfl

/-- Running a text that ends with a line feed and then another text comes to the same as running both
at once. If the first text ends well, only the results differ, by its own value. If it ends with a
runtime error then so does the text put together, with everything as it is then, the line apart. -/
theorem execute_append (s : Session) (a b : String) (hend : a.toList.getLast? = some '\n')
    (hstrings : (Scan.ofText a s.line).PlainStrings)
    (hfirst : (s.execute a).1.log.hadError = false)
    (hsecond : ((s.execute a).1.execute b).1.log.hadError = false)
    (htokens : (Scan.ofText b (s.execute a).1.line).tokens ≠ []) :
    (∀ r, (s.execute a).2 = .ok r → r ≠ .error →
      ((s.execute a).1.execute b).1.results =
          s.results ++ valuesOf (.ok r) ++ valuesOf ((s.execute a).1.execute b).2 ∧
        s.execute (a ++ b) =
          ({ ((s.execute a).1.execute b).1 with
              results := s.results ++ valuesOf ((s.execute a).1.execute b).2 },
            ((s.execute a).1.execute b).2)) ∧
      ((s.execute a).2 = .ok .error →
        s.execute (a ++ b) =
          ({ (s.execute a).1 with line := (s.execute (a ++ b)).1.line }, .ok .error)) := by
  obtain ⟨p, ha⟩ := accepts_of_hadError hfirst
  obtain ⟨q, hb⟩ := accepts_of_hadError hsecond
  have hexecute := execute_eq ha
  rw [keepValue_eq] at hexecute
  cases hrun : runProgram s.host s.limits.run (resolveProgram s.limits.tree p).value s.store with
  | ok v store =>
    obtain ⟨r', hr', hconclude⟩ := exists_conclude_ok v store
    rw [hrun, hconclude] at hexecute
    constructor
    · intro r hr hne
      have hafter : (s.execute a).1 =
          { s.ready a with store := store, results := s.results ++ valuesOf (.ok r') } :=
        congrArg Prod.fst hexecute
      refine ⟨?_, execute_append_of_ok hend hstrings ha hafter hb htokens hrun⟩
      rw [(execute_adds _ b).results, (execute_adds s a).results, hr]
    · intro herror
      rw [hexecute] at herror
      injection herror with herror
      exact absurd herror hr'
  | error stop store =>
    rcases conclude_error_cases stop store with ⟨e, hconclude⟩ | ⟨escape, hconclude⟩
    · rw [hrun, hconclude] at hexecute
      constructor
      · intro r hr hne
        rw [hexecute] at hr
        injection hr with hr
        exact absurd hr.symm hne
      · intro _
        exact execute_append_of_error hend hstrings ha (by rw [hexecute]; rfl) (by rw [hexecute]; rfl)
          hb htokens hrun hconclude
    · -- The first text left the session, and of that nothing is said.
      rw [hrun, hconclude] at hexecute
      constructor
      · intro r hr
        rw [hexecute] at hr
        cases hr
      · intro hr
        rw [hexecute] at hr
        cases hr

/-- A text that declares a variable and prints it, with a text after it that uses the variable; and a text
that prints and then calls nil, with a text after it that is not run. -/
theorem execute_append_declaredAndStopped :
    ((Session.new 0).execute ("var a=true;print a;\n" ++ "print !a;") =
        ({ (((Session.new 0).execute "var a=true;print a;\n").1.execute "print !a;").1 with
            results := [] }, .ok .noValue) ∧
      ((Session.new 0).execute ("var a=true;print a;\n" ++ "print !a;")).1.printed =
        #["true", "false"]) ∧
    ((Session.new 0).execute ("print true;nil();\n" ++ "print false;") =
        ({ ((Session.new 0).execute "print true;nil();\n").1 with
            line := ((Session.new 0).execute ("print true;nil();\n" ++ "print false;")).1.line },
          .ok .error) ∧
      ((Session.new 0).execute ("print true;nil();\n" ++ "print false;")).1.printed = #["true"]) := by
  refine ⟨⟨?_, by decide +kernel⟩, ?_, by decide +kernel⟩
  -- Both texts are run to their ends.
  · have hends := execute_append (Session.new 0) "var a=true;print a;\n" "print !a;" (by decide)
      (by decide +kernel) (by decide +kernel) (by decide +kernel) (by decide +kernel)
    have hfirst : ((Session.new 0).execute "var a=true;print a;\n").2 = .ok .noValue := by
      decide +kernel
    have hsecond : (((Session.new 0).execute "var a=true;print a;\n").1.execute "print !a;").2 =
        .ok .noValue := by decide +kernel
    have hwhole := (hends.1 .noValue hfirst nofun).2
    rwa [hsecond] at hwhole
  -- The first text stops, and the second is not run.
  · have hends := execute_append (Session.new 0) "print true;nil();\n" "print false;" (by decide)
      (by decide +kernel) (by decide +kernel) (by decide +kernel) (by decide +kernel)
    exact hends.2 (by decide +kernel)

end Session

end Treewalk
