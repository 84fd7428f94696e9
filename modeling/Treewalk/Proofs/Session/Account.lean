import Treewalk.Proofs.Session.Accepted
import Treewalk.Proofs.Token.Coverage

/-!
# What a unit adds to a session

However a unit ends, it moves the session past its lines, adds its value to the results if it has one,
and adds to the diagnostics without touching those that were there.
-/

namespace Treewalk

/-- The number of lines of a text. What comes after its last line feed is a line too. -/
def lineCount (text : String) : Int :=
  Scan.lineFeeds text.toList + if text.toList.getLast? = some '\n' then 0 else 1

namespace Session

/-- The values that a unit leaves among the results. -/
def valuesOf : Except Escape UnitResult → List Value
  | .ok (.value v) => [v]
  | _ => []

/-- It can be seen from the result of a unit whether there is no value. -/
instance (r : Except Escape UnitResult) : Decidable (r = .ok .noValue) :=
  match r with
  | .ok .noValue => isTrue rfl
  | .ok (.value _) | .ok .error | .error _ => isFalse nofun

/-- It can be seen from the result of a unit whether there is an error. -/
instance (r : Except Escape UnitResult) : Decidable (r = .ok .error) :=
  match r with
  | .ok .error => isTrue rfl
  | .ok (.value _) | .ok .noValue | .error _ => isFalse nofun

/-- The value of a unit is among the results then. -/
theorem keepValue_eq (outcome : Session × Except Escape UnitResult) : keepValue outcome =
    ({ outcome.1 with results := outcome.1.results ++ valuesOf outcome.2 }, outcome.2) := by
  obtain ⟨s, escape | (v | _ | _)⟩ := outcome
  · show (s, _) = ({ s with results := s.results ++ [] }, _)
    rw [List.append_nil]
  · rfl
  · show (s, _) = ({ s with results := s.results ++ [] }, _)
    rw [List.append_nil]
  · show (s, _) = ({ s with results := s.results ++ [] }, _)
    rw [List.append_nil]

variable {s : Session} {text : String}

/-! ## Lines -/

/-- Where scanning a text ends is as many lines further as there are in the text. -/
theorem lineAfter_ofText (text : String) (line : Int) :
    lineAfter text (Scan.ofText text line) = line + lineCount text := by
  have hend : (Scan.ofText text line).endLine = line + Scan.lineFeeds text.toList := by
    unfold Scan.ofText
    rw [Scan.endLine_ofPieces, pieces_flatten]
  unfold lineAfter lineCount
  rw [hend]
  split
  · rw [Int.add_zero]
  · rw [Int.add_assoc]

/-- Scanning moves a session past the lines of the text. -/
theorem line_scan (s : Session) (text : String) :
    (s.scan text).1.line = s.line + lineCount text :=
  lineAfter_ofText text s.line

/-- So does parsing. -/
theorem line_parse (s : Session) (text : String) :
    (s.parse text).1.line = s.line + lineCount text :=
  lineAfter_ofText text s.line

/-- Parsing runs nothing and leaves no result. -/
theorem results_parse (s : Session) (text : String) : (s.parse text).1.results = s.results := rfl

/-! ## The parts of a unit -/

/-- A session after another one, on the same line and with the same results. Diagnostics may have been
added. -/
structure GoesOn (s s' : Session) : Prop where
  line : s'.line = s.line
  results : s'.results = s.results
  diagnostics : s.log.diagnostics.toList <+: s'.log.diagnostics.toList

/-- A session goes on in two parts. -/
theorem GoesOn.trans {s s' s'' : Session} (h : s.GoesOn s') (h' : s'.GoesOn s'') : s.GoesOn s'' :=
  ⟨h'.line.trans h.line, h'.results.trans h.results, h.diagnostics.trans h'.diagnostics⟩

/-- A session that has only reported something has gone on. -/
theorem GoesOn.of_reports {log : Log} {new : List Diagnostic} (h : s.log.Reports log new) :
    s.GoesOn { s with log := log } :=
  ⟨rfl, rfl, h.diagnostics ▸ List.prefix_append _ _⟩

/-- Parsing only adds to the diagnostics. -/
theorem diagnostics_parse (s : Session) (text : String) :
    s.log.diagnostics.toList <+: (s.parse text).1.log.diagnostics.toList := by
  obtain ⟨log, line, new, hparse, hreports⟩ := s.parse_reports text
  rw [hparse]
  exact (GoesOn.of_reports hreports).diagnostics

/-- A session goes on after a program that is nested too deeply. -/
theorem goesOn_tooDeep (s : Session) (line : Int) : s.GoesOn (s.tooDeep line) :=
  .of_reports (s.log.reports_staticError (.onLine line) "too deeply nested")

/-- A session goes on after a run, whichever way it ended. -/
theorem goesOn_conclude (s : Session) (run : EStateM.Result Stop Store (Option Value)) :
    s.GoesOn (s.conclude run).1 := by
  cases run with
  | ok v store => cases v <;> exact ⟨rfl, rfl, List.prefix_rfl⟩
  | error stop store =>
    rcases conclude_error_cases stop store with ⟨e, hconclude⟩ | ⟨escape, hconclude⟩
    · rw [hconclude]
      exact ⟨rfl, rfl, by simp [Log.runtimeError, Log.report]⟩
    · rw [hconclude]
      exact ⟨rfl, rfl, List.prefix_rfl⟩

/-- A session goes on after a program was resolved and run. -/
theorem goesOn_resolveAndRun (s : Session) (line : Int) (p : List (Stmt Unit)) :
    s.GoesOn (s.resolveAndRun line p).1 := by
  have hnew := s.log.reports_misuses
    ((Treewalk.resolveProgram s.limits.tree p).findings.takeWhile (· ≠ .tooDeep))
  have hreported := GoesOn.of_reports hnew
  unfold resolveAndRun Log.resolveProgram
  simp only
  split
  · exact hreported.trans (goesOn_tooDeep _ line)
  · split
    · exact hreported
    · exact hreported.trans (goesOn_conclude _ _)

/-! ## Units -/

/-- What a unit with the given text adds to a session, whatever it ends with. -/
structure Adds (s : Session) (text : String) (after : Session × Except Escape UnitResult) : Prop where
  line : after.1.line = s.line + lineCount text
  results : after.1.results = s.results ++ valuesOf after.2
  diagnostics : s.log.diagnostics.toList <+: after.1.log.diagnostics.toList

/-- A unit adds its lines, its value and its diagnostics, however it ends. -/
theorem execute_adds (s : Session) (text : String) : s.Adds text (s.execute text) := by
  have hline := line_parse { s with log := s.log.reset } text
  have hresults := results_parse { s with log := s.log.reset } text
  have hdiagnostics := diagnostics_parse { s with log := s.log.reset } text
  unfold execute
  generalize { s with log := s.log.reset }.parse text = parsed at hline hresults hdiagnostics
  obtain ⟨s', reading⟩ := parsed
  -- Parsing moves the line and adds diagnostics; the run adds the value, if there is one.
  cases reading with
  | tooDeep =>
    have hdeep := goesOn_tooDeep s' s.line
    exact ⟨hdeep.line.trans hline, (hdeep.results.trans hresults).trans (List.append_nil _).symm,
      hdiagnostics.trans hdeep.diagnostics⟩
  | refused => exact ⟨hline, hresults.trans (List.append_nil _).symm, hdiagnostics⟩
  | program p =>
    have hrun := goesOn_resolveAndRun s' s.line p
    show s.Adds text (keepValue (s'.resolveAndRun s.line p))
    rw [keepValue_eq]
    exact ⟨hrun.line.trans hline, congrArg (· ++ _) (hrun.results.trans hresults),
      hdiagnostics.trans hrun.diagnostics⟩

end Session

end Treewalk
