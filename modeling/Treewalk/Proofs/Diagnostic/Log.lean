import Treewalk.Program

/-!
# What a log holds

Static errors are added to a log one after another. `Log.Reports` says what they do to it: their
diagnostics come after those that were there, the flag for static errors goes up with the first of them,
and the flag for runtime errors stays as it is. All of scanning, parsing and resolving does nothing else
to a log.

A log is shown one line for each diagnostic, if what the diagnostics say fits on a line.
-/

namespace Treewalk

/-! ## Lines of output -/

/-- A number is written in digits. -/
theorem not_mem_toString_nat (n : Nat) : '\n' ∉ (toString n).toList := by
  rw [Nat.toString_eq_ofList_toDigits, String.toList_ofList]
  intro h
  exact absurd (Nat.isDigit_of_mem_toDigits (by decide) (by decide) h) (by decide)

/-- The decimals of an integer are in one line. -/
theorem not_mem_toString_int (n : Int) : '\n' ∉ (toString n).toList := by
  cases n with
  | ofNat n => exact not_mem_toString_nat n
  | negSucc n =>
    show '\n' ∉ ("-" ++ toString (n + 1)).toList
    rw [String.toList_append, List.mem_append, not_or]
    exact ⟨by decide, not_mem_toString_nat _⟩

/-- A diagnostic is one line if its context and its message are. -/
theorem Diagnostic.text_oneLine {d : Diagnostic} (hcontext : '\n' ∉ d.context.toList)
    (hmessage : '\n' ∉ d.message.toList) : '\n' ∉ d.text.toList := by
  unfold text
  cases d.line with
  | none =>
    simp only [String.toList_append, List.mem_append, not_or]
    exact ⟨⟨⟨⟨by decide, by decide⟩, hcontext⟩, by decide⟩, hmessage⟩
  | some line =>
    simp only [String.toList_append, List.mem_append, not_or]
    exact ⟨⟨⟨⟨⟨⟨by decide, not_mem_toString_int line⟩, by decide⟩, by decide⟩, hcontext⟩, by decide⟩,
      hmessage⟩

/-- The misuse that a finding is, with the word at which it is found. -/
def Finding.misuse? : Finding → Option (Name × Misuse)
  | misuse place what => some (place, what)
  | tooDeep => none

/-- How a misuse is reported. -/
def misuseDiagnostic : Name × Misuse → Diagnostic
  | (place, what) =>
    let site := Site.atToken place.text place.line
    ⟨some site.line, site.context, what.message⟩

namespace Log

variable {log log₁ log₂ : Log} {new later : List Diagnostic}

/-- Texts are only added, each with a line feed, so nothing is left empty but by no diagnostics. -/
theorem foldl_text_eq_empty (ds : List Diagnostic) (out : String) :
    ds.foldl (fun out d => out ++ d.text ++ "\n") out = "" ↔ out = "" ∧ ds = [] := by
  induction ds generalizing out with
  | nil => simp
  | cons d ds ih =>
    rw [List.foldl_cons, ih]
    simp [String.append_eq_empty_iff]

/-- Nothing is shown of a log if and only if there is no diagnostic in it. -/
theorem text_eq_empty : log.text = "" ↔ log.diagnostics.toList = [] := by
  unfold text
  rw [← Array.foldl_toList, foldl_text_eq_empty]
  simp

/-- A log with one diagnostic is shown as the line of that. -/
theorem text_of_singleton {d : Diagnostic} (h : log.diagnostics.toList = [d]) :
    log.text = d.text ++ "\n" := by
  unfold text
  rw [← Array.foldl_toList, h]
  simp

/-! ## Static errors -/

/-- A log after more static errors. -/
structure Reports (log log' : Log) (new : List Diagnostic) : Prop where
  diagnostics : log'.diagnostics.toList = log.diagnostics.toList ++ new
  hadError : log'.hadError = (log.hadError || !new.isEmpty)
  hadRuntimeError : log'.hadRuntimeError = log.hadRuntimeError
  fatal : log'.fatal = log.fatal

/-- Nothing is reported. -/
theorem Reports.refl (log : Log) : log.Reports log [] :=
  ⟨(List.append_nil _).symm, (Bool.or_false _).symm, rfl, rfl⟩

/-- One report comes after another. -/
theorem Reports.trans (h : log.Reports log₁ new) (h' : log₁.Reports log₂ later) :
    log.Reports log₂ (new ++ later) := by
  refine ⟨?_, ?_, h'.hadRuntimeError.trans h.hadRuntimeError, h'.fatal.trans h.fatal⟩
  · rw [h'.diagnostics, h.diagnostics, List.append_assoc]
  · rw [h'.hadError, h.hadError]
    cases new <;> cases later <;> simp

/-- A static error adds one diagnostic. -/
theorem reports_staticError (log : Log) (site : Site) (message : String) :
    log.Reports (log.staticError site message) [⟨some site.line, site.context, message⟩] :=
  ⟨Array.toList_push, (Bool.or_true _).symm, rfl, rfl⟩

/-- Static errors are reported one after another. -/
theorem reports_foldl {α : Type} {step : Log → α → Log} {diagnostic : α → Diagnostic}
    (hstep : ∀ (log : Log) a, log.Reports (step log a) [diagnostic a]) (log : Log) (as : List α) :
    log.Reports (as.foldl step log) (as.map diagnostic) := by
  induction as generalizing log with
  | nil => exact .refl log
  | cons a as ih => exact (hstep log a).trans (ih (step log a))

/-- A fault adds one diagnostic, on its line. -/
theorem reports_scanFaults (log : Log) (faults : List (Int × ScanFault)) :
    log.Reports (log.scanFaults faults) (faults.map fun (line, f) => ⟨some line, "", f.message⟩) :=
  reports_foldl (fun log ⟨line, f⟩ => log.reports_staticError (.onLine line) f.message) log faults

/-- Each syntax error is reported once, at its place or at the end of the text. -/
theorem reports_syntaxErrors (log : Log) (endLine : Int) (errors : List SyntaxError) :
    log.Reports (log.syntaxErrors endLine errors) (errors.map fun e =>
      let site := Site.ofToken? endLine e.place
      ⟨some site.line, site.context, e.fault.message⟩) :=
  reports_foldl (fun log e => log.reports_staticError (.ofToken? endLine e.place) e.fault.message)
    log errors

/-- A misuse adds one diagnostic, at the word at which it is found. -/
theorem reports_misuses (log : Log) (findings : List Finding) :
    log.Reports (log.misuses findings) ((findings.filterMap Finding.misuse?).map misuseDiagnostic) := by
  induction findings generalizing log with
  | nil => exact .refl log
  | cons f findings ih =>
    cases f with
    | tooDeep => exact ih log
    | misuse place what =>
      exact (log.reports_staticError _ _).trans
        (ih (log.staticError (.atToken place.text place.line) what.message))

end Log

end Treewalk
