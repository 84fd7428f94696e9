import Treewalk.Proofs.Eval.Search
import Treewalk.Proofs.Scope.Plain
import Treewalk.Proofs.Session.History

/-!
# Sessions that search for names

`executeWith` runs a text as a session does, but with a given access to names; with names accessed at
their addresses it is `execute`. If all programs of a session are plain, then a session in which names
are searched for goes the same way, operation by operation (`Session.execute_bySearch`).
-/

namespace Treewalk

namespace Session

/-! ## Other ways to access names -/

/-- Resolves and runs a program with the given access to names. -/
def resolveAndRunWith (access : Access) (s : Session) (line : Int) (program : List (Stmt Unit)) :
    Session × Except Escape UnitResult :=
  let (log, resolved) := s.log.resolveProgram s.limits program
  let s := { s with log := log }
  match resolved with
  | none => (s.tooDeep line, .ok .error)
  | some program =>
    if s.log.hadError then (s, .ok .error)
    else s.conclude (runProgram (s.host.withAccess access) s.limits.run program s.store)

/-- Runs a text as one unit with the given access to names. -/
def executeWith (access : Access) (s : Session) (text : String) :
    Session × Except Escape UnitResult :=
  let start := s.line
  match { s with log := s.log.reset }.parse text with
  | (s, .tooDeep) => (s.tooDeep start, .ok .error)
  | (s, .refused) => (s, .ok .error)
  | (s, .program p) => keepValue (s.resolveAndRunWith access start p)

/-- A session after an operation that runs its text with the given access to names. -/
def performWith (access : Access) (s : Session) (op : Operation) : Session :=
  match op.text? with
  | some text => (s.executeWith access text).1
  | none => s.perform op

/-- A session after operations with the given access to names. -/
def performAllWith (access : Access) (s : Session) (ops : List Operation) : Session :=
  ops.foldl (performWith access) s

variable {s : Session} {text : String} {p : List (Stmt Unit)} {access : Access}

/-- Units are run with names accessed at their addresses. -/
theorem executeWith_byAddress (s : Session) (text : String) :
    s.executeWith .byAddress text = s.execute text := rfl

/-- An accepted text is run with the given access. -/
theorem executeWith_of_accepts (h : s.Accepts text p) : s.executeWith access text =
    keepValue ((s.ready text).conclude
      (runProgram (s.host.withAccess access) s.limits.run (resolveProgram s.limits.tree p).value
        s.store)) := by
  unfold executeWith
  rw [parse_of_accepts h]
  show keepValue ((s.ready text).resolveAndRunWith access s.line p) = _
  unfold resolveAndRunWith Log.resolveProgram
  have hresolved : (resolveProgram (s.ready text).limits.tree p).findings = [] := h.resolved
  simp only [hresolved]
  rfl

/-- A program is not run if resolving it finds something. -/
theorem resolveAndRunWith_of_findings {line : Int}
    (h : (resolveProgram s.limits.tree p).findings ≠ []) :
    s.resolveAndRunWith access line p = s.resolveAndRun line p := by
  unfold resolveAndRunWith resolveAndRun Log.resolveProgram
  by_cases hdeep : .tooDeep ∈ (resolveProgram s.limits.tree p).findings
  · simp only [if_pos hdeep]
  · simp only [if_neg hdeep]
    split
    · rfl
    · next hdown => exact absurd (Log.eq_nil_of_hadError_misuses hdeep (by simpa using hdown)) h

/-- A text that is not accepted is not run. -/
theorem executeWith_of_not_accepts (h : ¬∃ p, s.Accepts text p) :
    s.executeWith access text = s.execute text := by
  unfold executeWith execute
  rcases parse_cases (s := { s with log := s.log.reset }) rfl text with
    ⟨p, hp, hfaults, hparsed⟩ | ⟨s', hp, -⟩ | ⟨s', hp⟩
  · have hfindings : (resolveProgram s.limits.tree p).findings ≠ [] :=
      fun hnil => h ⟨p, hfaults, hparsed, hnil⟩
    rw [hp]
    exact congrArg keepValue (resolveAndRunWith_of_findings hfindings)
  · rw [hp]
  · rw [hp]

/-! ## Plain programs -/

section

variable {start : Session} {ops : List Operation}

/-- A session that runs plain programs only is tame. -/
theorem tame (hplain : ∀ s p, start.Runs ops s p → (s.rootVisit p).Plain) :
    (history start ops).Tame := by
  constructor
  · rintro v ⟨s, p, hruns, hv⟩ σ hσ n hn
    exact (hplain s p hruns).ready (Visit.known rfl hv) hn σ hσ
  · rintro p kind r ⟨s, program, hruns, hv⟩
    have hnested := (hplain s program hruns).nested (Visit.known rfl hv) rfl
    have hscopes := ((history start ops).sound ⟨s, program, hruns, hv⟩).place.scopes
    refine List.forall₂_iff_zip.2 ⟨hscopes.length_eq, fun {σ o} hmem n hn ho => ?_⟩
    rcases hn with rfl | hn
    · obtain ⟨c, ms, hreceiver⟩ := (List.forall₂_zip hscopes hmem).ofClass ho
      exact (List.forall₂_zip hscopes hmem).receiver c ms hreceiver
    · exact List.forall₂_zip hnested hmem n hn ho

end

variable {time : Nat → Float} {limits : Limits} {ops past : List Operation} {op : Operation}

/-- If all programs are plain, a unit that is run with names searched for ends as it does with names at
their addresses. -/
theorem executeWith_bySearch
    (hplain : ∀ s p, (starting time limits).Runs ops s p → (s.rootVisit p).Plain)
    (hop : past ++ [op] <+: ops) (htext : op.text? = some text) :
    ((starting time limits).performAll past).executeWith .bySearch text =
      ((starting time limits).performAll past).execute text := by
  by_cases haccepts : ∃ p, ((starting time limits).performAll past).Accepts text p
  · obtain ⟨p, hp⟩ := haccepts
    have hruns : (starting time limits).Runs ops ((starting time limits).performAll past) p :=
      ⟨past, op, text, hop, htext, rfl, hp⟩
    obtain ⟨W, hs⟩ := stands ⟨_, _, hruns, rfl, .refl⟩
    rw [executeWith_of_accepts hp, execute_eq hp]
    exact congrArg (fun r => keepValue (Session.conclude _ r)) (hs.agreeing (tame hplain)).program_eq
  · exact executeWith_of_not_accepts haccepts

/-- If all programs are plain, a session in which names are searched for goes through the same states as
one in which they are accessed at their addresses. -/
theorem performAllWith_bySearch
    (hplain : ∀ s p, (starting time limits).Runs ops s p → (s.rootVisit p).Plain)
    (hpast : past <+: ops) :
    (starting time limits).performAllWith .bySearch past = (starting time limits).performAll past := by
  induction past using List.reverseRecOn with
  | nil => rfl
  | append_singleton past op ih =>
    -- The session before the last operation is the same by induction, and so are its runs.
    have hbefore := ih ((List.prefix_append past [op]).trans hpast)
    have hlast : (starting time limits).performAllWith .bySearch (past ++ [op]) =
        ((starting time limits).performAllWith .bySearch past).performWith .bySearch op := by
      unfold performAllWith
      rw [List.foldl_append]
      rfl
    rw [hlast, hbefore, performAll_append]
    unfold performWith
    cases htext : op.text? with
    | none => rfl
    | some text =>
      simp only
      rw [executeWith_bySearch hplain hpast htext, perform_of_text htext]

/-- If no program of a session declares a local name after a use of it in a routine inside the scope, or
uses a local variable in its own initializer, then every unit comes to the same end in a session that
searches the frames for names, the nearest first: with the same result, the same reports, the same lines
printed, and the same values in all frames and instances. -/
theorem execute_bySearch (time : Nat → Float) (limits : Limits) (ops : List Operation)
    (hplain : ∀ s p, (starting time limits).Runs ops s p → (s.rootVisit p).Plain)
    (past : List Operation) (op : Operation) (text : String) (hop : past ++ [op] <+: ops)
    (htext : op.text? = some text) :
    ((starting time limits).performAllWith .bySearch past).executeWith .bySearch text =
      ((starting time limits).performAll past).execute text := by
  rw [performAllWith_bySearch hplain ((List.prefix_append past [op]).trans hop)]
  exact executeWith_bySearch hplain hop htext

/-- A block with a function that writes to a variable of the block, and a call of it. -/
def writeFromFunction : List (Stmt Unit) :=
  [.block [.var ⟨"a", 1⟩ none,
    .function ⟨"f", 1⟩ ⟨[], [.expression (.assign ⟨"a", 1⟩ () (.literal (.boolean true)))]⟩,
    .expression (.call (.variable ⟨"f", 1⟩ ()) 1 []), .print (.variable ⟨"a", 1⟩ ())]]

/-- The text of `writeFromFunction` is accepted. -/
theorem accepts_writeFromFunction : (starting 0 .standard).Accepts
    "\x7bvar a;fn f()\x7ba=true;\x7df();print a;\x7d" writeFromFunction := by
  -- The tokens first, then the derivation from the inside to the outside.
  refine ⟨by decide +kernel, ?_, by decide +kernel⟩
  have htokens : (Scan.ofText "\x7bvar a;fn f()\x7ba=true;\x7df();print a;\x7d"
      (starting 0 .standard).line).tokens =
        [Grammar.sym .leftBrace 1, Grammar.word .var 1, Grammar.ident ⟨"a", 1⟩,
          Grammar.sym .semicolon 1, Grammar.word .fn 1, Grammar.ident ⟨"f", 1⟩,
          Grammar.sym .leftParen 1, Grammar.sym .rightParen 1, Grammar.sym .leftBrace 1,
          Grammar.ident ⟨"a", 1⟩, Grammar.sym .equal 1, Grammar.word .true_ 1,
          Grammar.sym .semicolon 1, Grammar.sym .rightBrace 1, Grammar.ident ⟨"f", 1⟩,
          Grammar.sym .leftParen 1, Grammar.sym .rightParen 1, Grammar.sym .semicolon 1,
          Grammar.word .print 1, Grammar.ident ⟨"a", 1⟩, Grammar.sym .semicolon 1,
          Grammar.sym .rightBrace 1] := by decide +kernel
  rw [htokens]
  have hassign : Grammar.Derives true 298 (.expression .assignment)
      [Grammar.ident ⟨"a", 1⟩, Grammar.sym .equal 1, Grammar.word .true_ 1]
      (.assign ⟨"a", 1⟩ () (.literal (.boolean true))) :=
    .assign (d := 297) (.of_atom (t := Grammar.word .true_ 1) rfl)
  have hroutine : Grammar.Derives true 299 .routine
      [Grammar.sym .leftParen 1, Grammar.sym .rightParen 1, Grammar.sym .leftBrace 1,
        Grammar.ident ⟨"a", 1⟩, Grammar.sym .equal 1, Grammar.word .true_ 1,
        Grammar.sym .semicolon 1, Grammar.sym .rightBrace 1]
      ⟨[], [.expression (.assign ⟨"a", 1⟩ () (.literal (.boolean true)))]⟩ :=
    .routine (d := 298) .none (.declarations (.statement (.expression hassign)) .noDeclaration)
  have hname : Grammar.Derives true 299 (.expression .call) [Grammar.ident ⟨"f", 1⟩]
      (.variable ⟨"f", 1⟩ ()) := .tighter (.atom rfl)
  have hcall : Grammar.Derives true 299 (.statement false) [Grammar.ident ⟨"f", 1⟩,
        Grammar.sym .leftParen 1, Grammar.sym .rightParen 1, Grammar.sym .semicolon 1]
      (.expression (.call (.variable ⟨"f", 1⟩ ()) 1 [])) :=
    .expression (.of_call (.callNothing (l := 1) hname))
  exact Grammar.reads_of_derives (.declarations (.statement (.block (d := 299)
    (.declarations (.varDeclaration .unset) (.declarations (.function hroutine)
      (.declarations (.statement hcall)
        (.declarations (.statement (.print (.variable ⟨"a", 1⟩))) .noDeclaration))))))
    .noDeclaration)

/-- A function that writes to a variable of the block around it does the same if the variable is searched
for: the program is plain. -/
theorem execute_bySearch_writeFromFunction :
    ((starting 0 .standard).performAllWith .bySearch []).executeWith .bySearch
        "\x7bvar a;fn f()\x7ba=true;\x7df();print a;\x7d" =
      ((starting 0 .standard).performAll []).execute
        "\x7bvar a;fn f()\x7ba=true;\x7df();print a;\x7d" := by
  refine execute_bySearch 0 .standard
    [.execute "\x7bvar a;fn f()\x7ba=true;\x7df();print a;\x7d"] ?_ [] _ _ List.prefix_rfl rfl
  intro s p hruns
  obtain ⟨rfl, rfl⟩ := (runs_execute accepts_writeFromFunction).1 hruns
  have hplain : Visit.everywhere (Visit.isPlainHere 20) 20
      ((starting 0 .standard).rootVisit writeFromFunction) = true := by decide +kernel
  exact Visit.plain_of_everywhere hplain

end Session

end Treewalk
