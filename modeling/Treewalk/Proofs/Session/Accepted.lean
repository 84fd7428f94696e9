import Treewalk.Proofs.Diagnostic.Log
import Treewalk.Proofs.Grammar
import Treewalk.Session

/-!
# Texts without static errors

`s.Accepts text p` says that a session finds nothing wrong with a text before it is run: scanning,
parsing and resolving report nothing, and `p` is the program that is read. Then what `execute` does is
to run the resolved program (`execute_of_accepts`), and the session can tell the two cases apart by its
flag for static errors (`accepts_of_hadError`).
-/

namespace Treewalk

namespace Log

/-- Once the flag for static errors is up it stays up. -/
theorem hadError_foldl {α : Type} {step : Log → α → Log}
    (hstep : ∀ log a, (step log a).hadError = true) (log : Log) (as : List α) :
    (as.foldl step log).hadError = (log.hadError || !as.isEmpty) := by
  induction as generalizing log with
  | nil =>
    rw [List.foldl_nil]
    exact (Bool.or_false _).symm
  | cons a as ih =>
    rw [List.foldl_cons, ih, hstep, Bool.true_or]
    exact (Bool.or_true _).symm

/-- Reporting what a scan has found marks an error if there was one or something is found. -/
theorem hadError_scanFaults (log : Log) (faults : List (Int × ScanFault)) :
    (log.scanFaults faults).hadError = (log.hadError || !faults.isEmpty) :=
  hadError_foldl (fun _ _ => rfl) log faults

/-- Reporting syntax errors marks an error if there was one or there are some. -/
theorem hadError_syntaxErrors (log : Log) (endLine : Int) (errors : List SyntaxError) :
    (log.syntaxErrors endLine errors).hadError = (log.hadError || !errors.isEmpty) :=
  hadError_foldl (fun _ _ => rfl) log errors

/-- Nothing that is found takes the flag down. -/
theorem hadError_misuses {log : Log} (hlog : log.hadError = true) (findings : List Finding) :
    (log.misuses findings).hadError = true := by
  induction findings generalizing log with
  | nil => exact hlog
  | cons f findings ih =>
    cases f with
    | misuse place what => exact ih rfl
    | tooDeep => exact ih hlog

/-- Misuses are all reported, so the flag stays down only if there is none. -/
theorem eq_nil_of_hadError_misuses {log : Log} {findings : List Finding}
    (hdeep : .tooDeep ∉ findings)
    (h : (log.misuses (findings.takeWhile (· ≠ .tooDeep))).hadError = false) : findings = [] := by
  cases findings with
  | nil => rfl
  | cons f findings =>
    cases f with
    | tooDeep => exact absurd List.mem_cons_self hdeep
    | misuse place what =>
      rw [List.takeWhile_cons_of_pos (by simp)] at h
      rw [misuses, hadError_misuses rfl] at h
      cases h

end Log

namespace Session

/-- Nothing is wrong with a text before it is run, and this is the program that is read. -/
structure Accepts (s : Session) (text : String) (p : List (Stmt Unit)) : Prop where
  faults : (Scan.ofText text s.line).faults = []
  parsed : parseProgram s.limits.grammar (Scan.ofText text s.line).tokens = ⟨.ok p, [], []⟩
  resolved : (resolveProgram s.limits.tree p).findings = []

/-- There is one program in a text. -/
theorem Accepts.unique {s : Session} {text : String} {p q : List (Stmt Unit)} (hp : s.Accepts text p)
    (hq : s.Accepts text q) : p = q := by
  have hsame := hp.parsed.symm.trans hq.parsed
  exact Except.ok.inj (congrArg Parsed.outcome hsame)

/-- A session that is ready to run a text with which nothing is wrong. -/
def ready (s : Session) (text : String) : Session :=
  { s with log := s.log.reset, line := lineAfter text (Scan.ofText text s.line) }

/-- Parsing a text with which nothing is wrong gives its program. -/
theorem parse_of_accepts {s : Session} {text : String} {p : List (Stmt Unit)}
    (h : s.Accepts text p) :
    { s with log := s.log.reset }.parse text = (s.ready text, .program p) := by
  unfold parse scan Log.scanText Log.readProgram
  simp only [h.faults, h.parsed]
  rfl

/-- A text with which nothing is wrong is run. -/
theorem execute_of_accepts {s : Session} {text : String} {p : List (Stmt Unit)}
    (h : s.Accepts text p) : s.execute text =
      keepValue ((s.ready text).interpret (resolveProgram s.limits.tree p).value) := by
  unfold execute
  rw [parse_of_accepts h]
  show keepValue ((s.ready text).resolveAndRun s.line p) = _
  unfold resolveAndRun Log.resolveProgram
  have hresolved : (resolveProgram (s.ready text).limits.tree p).findings = [] := h.resolved
  simp only [hresolved]
  rfl

/-- Parsing gives a program only if there is nothing to report, and refuses a text only with a static
error on record. -/
theorem parse_cases {s : Session} (hs : s.log.hadError = false) (text : String) :
    (∃ p, s.parse text = ({ s with line := lineAfter text (Scan.ofText text s.line) }, .program p) ∧
        (Scan.ofText text s.line).faults = [] ∧
        parseProgram s.limits.grammar (Scan.ofText text s.line).tokens = ⟨.ok p, [], []⟩) ∨
      (∃ s', s.parse text = (s', .refused) ∧ s'.log.hadError = true) ∨
      ∃ s', s.parse text = (s', .tooDeep) := by
  -- The text is parsed or it is nested too deeply, and if it is parsed there are errors or there are
  -- none.
  let scan := Scan.ofText text s.line
  let parsed := parseProgram s.limits.grammar scan.tokens
  let log := (s.log.scanFaults scan.faults).syntaxErrors scan.endLine parsed.errors
  cases houtcome : parsed.outcome with
  | error halt =>
    have hparse : s.parse text = ({ s with log := log, line := lineAfter text scan }, .tooDeep) := by
      have houtcome' : (parseProgram s.limits.grammar (Scan.ofText text s.line).tokens).outcome =
        .error halt := houtcome
      unfold parse Session.scan Log.scanText Log.readProgram
      simp only [houtcome']
      rfl
    exact .inr (.inr ⟨_, hparse⟩)
  | ok p =>
    have hparse : s.parse text = ({ s with log := log, line := lineAfter text scan },
        if log.hadError then .refused else .program p) := by
      have houtcome' : (parseProgram s.limits.grammar (Scan.ofText text s.line).tokens).outcome =
        .ok p := houtcome
      unfold parse Session.scan Log.scanText Log.readProgram
      simp only [houtcome']
      rfl
    cases hlog : log.hadError with
    | true =>
      rw [hlog] at hparse
      exact .inr (.inl ⟨_, hparse, hlog⟩)
    | false =>
      -- No error was logged, so scanning found no faults and parsing reported none.
      have hflags := hlog
      rw [Log.hadError_syntaxErrors, Log.hadError_scanFaults, hs] at hflags
      simp only [Bool.false_or, Bool.or_eq_false_iff, Bool.not_eq_false', List.isEmpty_iff] at hflags
      obtain ⟨hfaults, herrors⟩ := hflags
      refine .inl ⟨p, ?_, hfaults, Grammar.parseProgram_of_outcome herrors houtcome⟩
      have hsame : log = s.log := by
        show (s.log.scanFaults scan.faults).syntaxErrors scan.endLine parsed.errors = s.log
        rw [hfaults, herrors]
        rfl
      rw [hparse, hlog, hsame]
      rfl

/-- A value among the results changes nothing of the log. -/
theorem log_keepValue (outcome : Session × Except Escape UnitResult) :
    (keepValue outcome).1.log = outcome.1.log := by
  unfold keepValue
  split <;> rfl

/-- If no static error is on record after a program, then resolving it found nothing. -/
theorem findings_of_hadError {s : Session} {line : Int} {p : List (Stmt Unit)}
    (h : (s.resolveAndRun line p).1.log.hadError = false) :
    (resolveProgram s.limits.tree p).findings = [] := by
  unfold resolveAndRun Log.resolveProgram at h
  simp only at h
  -- A tree that is too deep and a misuse both put the flag up, and nothing takes it down.
  by_cases hdeep : .tooDeep ∈ (resolveProgram s.limits.tree p).findings
  · rw [if_pos hdeep] at h
    cases h
  · rw [if_neg hdeep] at h
    simp only at h
    split at h
    · next hup =>
      rw [hup] at h
      cases h
    · next hdown => exact Log.eq_nil_of_hadError_misuses hdeep (by simpa using hdown)

/-- If no static error is on record after a text, then nothing was wrong with it. -/
theorem accepts_of_hadError {s : Session} {text : String}
    (h : (s.execute text).1.log.hadError = false) : ∃ p, s.Accepts text p := by
  unfold execute at h
  simp only at h
  -- A scan or a parse that finds something wrong puts the flag up before anything is resolved.
  rcases parse_cases (s := { s with log := s.log.reset }) rfl text with
    ⟨p, hparse, hfaults, hparsed⟩ | ⟨s', hparse, hup⟩ | ⟨s', hparse⟩
  · rw [hparse] at h
    simp only [log_keepValue] at h
    have hresolved := findings_of_hadError h
    exact ⟨p, hfaults, hparsed, hresolved⟩
  · rw [hparse] at h
    simp only [hup] at h
    cases h
  · rw [hparse] at h
    cases h

/-- Parsing adds static errors to the log, and nothing but the log and the line is changed. -/
theorem parse_reports (s : Session) (text : String) : ∃ log line new,
    (s.parse text).1 = { s with log := log, line := line } ∧ s.log.Reports log new := by
  let scan := Scan.ofText text s.line
  let parsed := parseProgram s.limits.grammar scan.tokens
  exact ⟨_, _, _, rfl, (s.log.reports_scanFaults scan.faults).trans
    ((s.log.scanFaults scan.faults).reports_syntaxErrors scan.endLine parsed.errors)⟩

/-- A text that is not accepted ends with an error. At least one static error is added to the log, and
nothing but the log and the line is changed. -/
theorem execute_of_not_accepts {s : Session} {text : String} (h : ¬∃ p, s.Accepts text p) :
    ∃ log line new, s.execute text = ({ s with log := log, line := line }, .ok .error) ∧
      s.log.reset.Reports log new ∧ log.hadError = true := by
  obtain ⟨log, line, new, hsession, hreports⟩ := { s with log := s.log.reset }.parse_reports text
  unfold execute
  simp only
  rcases parse_cases (s := { s with log := s.log.reset }) rfl text with
    ⟨p, hp, hfaults, hparsed⟩ | ⟨s', hp, hup⟩ | ⟨s', hp⟩
  · -- The text has a program, so it is resolving that refuses it.
    have hfindings : (resolveProgram s.limits.tree p).findings ≠ [] :=
      fun hnil => h ⟨p, hfaults, hparsed, hnil⟩
    have hmisuses := s.log.reset.reports_misuses
      ((resolveProgram s.limits.tree p).findings.takeWhile (· ≠ .tooDeep))
    rw [hp]
    simp only
    unfold resolveAndRun Log.resolveProgram
    simp only
    by_cases hdeep : .tooDeep ∈ (resolveProgram s.limits.tree p).findings
    · rw [if_pos hdeep]
      exact ⟨_, _, _, rfl, hmisuses.trans (Log.reports_staticError _ _ _), rfl⟩
    · rw [if_neg hdeep]
      simp only
      split
      · next hup => exact ⟨_, _, _, rfl, hmisuses, hup⟩
      · next hdown => exact absurd (Log.eq_nil_of_hadError_misuses hdeep (by simpa using hdown)) hfindings
  · rw [hp] at hsession ⊢
    subst hsession
    exact ⟨_, _, _, rfl, hreports, hup⟩
  · rw [hp] at hsession ⊢
    subst hsession
    exact ⟨_, _, _, rfl, hreports.trans (log.reports_staticError _ _), rfl⟩

/-- The session after a unit with which nothing is wrong. -/
theorem execute_eq {s : Session} {text : String} {p : List (Stmt Unit)} (h : s.Accepts text p) :
    s.execute text = keepValue ((s.ready text).conclude
      (runProgram s.host s.limits.run (resolveProgram s.limits.tree p).value s.store)) :=
  execute_of_accepts h

/-- A run that stops ends a unit with an error that is reported, or leaves the session. -/
theorem conclude_error_cases (stop : Stop) (store : Store) :
    (∃ e, ∀ s : Session, s.conclude (.error stop store) =
        ({ s with store := store, log := s.log.runtimeError e }, .ok .error)) ∨
      ∃ escape, ∀ s : Session, s.conclude (.error stop store) =
        ({ s with store := store }, .error escape) := by
  cases h : stopped stop with
  | inl e =>
    refine .inl ⟨e, fun s => ?_⟩
    unfold conclude
    simp only [h]
  | inr escape =>
    refine .inr ⟨escape, fun s => ?_⟩
    unfold conclude
    simp only [h]

end Session

end Treewalk
