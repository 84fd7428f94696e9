import Treewalk.Eval
import Treewalk.Program
import Treewalk.Tree.Outline

/-!
# Sessions

A session runs one unit of text after another. What must last from one unit to the next is in it: the
store with the global names, the native functions, the line on which the next unit begins, the results
that nobody has taken yet, and the log.

A unit is scanned, parsed, resolved and run. It is run only if nothing was reported before, and then it
ends with a value, without one, or with an error.
-/

namespace Treewalk

/-- How a unit ends: with the value of its last statement, without a value, or with a reported
error. -/
inductive UnitResult where
  | value (v : Value)
  | noValue
  | error

/-- What lasts from one unit to the next. -/
structure Session where
  store : Store
  natives : Array Native
  /-- The line on which the next unit begins. -/
  line : Int
  /-- The values of units that were not taken yet, the oldest first. -/
  results : List Value
  log : Log
  limits : Limits

namespace Session

/-- Puts a native function among the global names. -/
def registerNative (s : Session) (name : String) (arity : Nat) (native : Native) : Session :=
  { s with
    natives := s.natives.push native
    store := { s.store with
      frames := s.store.frames.put globalFrame name (.native s.natives.size arity) } }

/-- A new session, in which one native function tells the time. -/
def new (time : Nat → Float) : Session :=
  registerNative ⟨.initial, #[], 1, [], {}, .standard⟩ "clock" 0 (.clock time)

/-- The global names with their values, in increasing order. -/
def globals (s : Session) : List (String × Value) := s.store.frames.entries globalFrame

/-- The lines printed so far. -/
def printed (s : Session) : Array String := s.store.printed

/-! ## Units -/

/-- The line on which a unit begins that comes after a text. A text without a line feed at its end
counts as a line of its own. -/
def lineAfter (text : String) (scan : Scan) : Int :=
  if text.toList.getLast? = some '\n' then scan.endLine else scan.endLine + 1

/-- Scans a text that goes on where the last one ended, and reports its faults. -/
def scan (s : Session) (text : String) : Session × Scan :=
  let (log, scan) := s.log.scanText text s.line
  ({ s with log := log, line := lineAfter text scan }, scan)

/-- What the parsing of a text comes to. -/
inductive Reading where
  | program (p : List (Stmt Unit))
  | refused
  | tooDeep

/-- Scans and parses a text. It is refused if a static error is on record. -/
def parse (s : Session) (text : String) : Session × Reading :=
  let (s, scan) := s.scan text
  let (log, program) := s.log.readProgram s.limits scan
  ({ s with log := log },
    match program with
    | none => .tooDeep
    | some p => if log.hadError then .refused else .program p)

/-- The error that is reported when a run stops, or what leaves the session then. -/
def stopped : Stop → LanguageError ⊕ Escape
  | .fault line f => .inl ⟨.runtime, line, f.message, f.isInternal⟩
  | .overflow line => .inl ⟨.runtime, line, "stack overflow", false⟩
  | .missing name => .inr (.crash (.missingName name))
  | .unfinished => .inr .interrupt
  | .raised kind text => .inr (.crash (.other kind text))

/-- The session after a run, and how the unit ends. -/
def conclude (s : Session) :
    EStateM.Result Stop Store (Option Value) → Session × Except Escape UnitResult
  | .ok (some v) store => ({ s with store := store }, .ok (.value v))
  | .ok none store => ({ s with store := store }, .ok .noValue)
  | .error stop store =>
    match stopped stop with
    | .inl e => ({ s with store := store, log := s.log.runtimeError e }, .ok .error)
    | .inr escape => ({ s with store := store }, .error escape)

/-- What a run of a session does not change. -/
def host (s : Session) : Host := ⟨s.natives, .byAddress, s.limits.rounds⟩

/-- Runs a resolved program. -/
def interpret (s : Session) (program : List (Stmt Address)) :
    Session × Except Escape UnitResult :=
  s.conclude (runProgram s.host s.limits.run program s.store)

/-- Reports that a unit that begins on the given line is nested too deeply. -/
def tooDeep (s : Session) (line : Int) : Session :=
  { s with log := s.log.staticError (.onLine line) "too deeply nested" }

/-- Resolves and runs a program that begins on the given line. -/
def resolveAndRun (s : Session) (line : Int) (program : List (Stmt Unit)) :
    Session × Except Escape UnitResult :=
  let (log, resolved) := s.log.resolveProgram s.limits program
  let s := { s with log := log }
  match resolved with
  | none => (s.tooDeep line, .ok .error)
  | some program => if s.log.hadError then (s, .ok .error) else s.interpret program

/-- Keeps a value that a unit ends with among the results. -/
def keepValue : Session × Except Escape UnitResult → Session × Except Escape UnitResult
  | (s, .ok (.value v)) => ({ s with results := s.results ++ [v] }, .ok (.value v))
  | outcome => outcome

/-- Runs a text as one unit. A value is kept among the results. -/
def execute (s : Session) (text : String) : Session × Except Escape UnitResult :=
  let start := s.line
  match { s with log := s.log.reset }.parse text with
  | (s, .tooDeep) => (s.tooDeep start, .ok .error)
  | (s, .refused) => (s, .ok .error)
  | (s, .program p) => keepValue (s.resolveAndRun start p)

/-- The error for a file that cannot be opened. -/
def notOpened (path : String) : LanguageError :=
  ⟨.general, none, "'" ++ path ++ "' could not be opened", false⟩

/-- The text of a file from its bytes, with line feeds at all line ends. -/
def fileText (bytes : List UInt8) : Except Escape String :=
  match Text.decodeUtf8 bytes with
  | .ok text => .ok (String.ofList (Text.unifiedLines text))
  | .error e => .error (.crash (.notUtf8 e))

/-- Runs a file as one unit, given its bytes if it can be opened. -/
def runFile (s : Session) (path : String) (content : Option (List UInt8)) :
    Session × Except Escape UnitResult :=
  match content with
  | none => (s, .error (.error (notOpened path)))
  | some bytes =>
    match fileText bytes with
    | .ok text => s.execute text
    | .error escape => (s, .error escape)

/-- Takes the oldest result and gives what a program would print for it. -/
def pop (s : Session) : Session × Except Escape String :=
  match s.results with
  | [] => (s, .error (.crash .noResult))
  | v :: later => ({ s with results := later }, .ok v.display)

end Session

end Treewalk
