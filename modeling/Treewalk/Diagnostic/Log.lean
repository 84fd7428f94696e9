import Treewalk.Diagnostic
import Treewalk.Text.Utf8
import Treewalk.Token.Scan

/-!
# The log

A log collects diagnostics in the order in which they are reported and keeps two flags, one for static
errors and one for runtime errors. The flags stay up until `reset`; the diagnostics stay for good.

`Escape` is whatever can leave a part of the program before its end, and `Log.guard` is the boundary
at which escapes are turned into diagnostics: errors of the language and interrupts stop there, and
everything else goes on, a crash after it was reported as unknown.
-/

namespace Treewalk

/-- A failure that the language does not define. -/
inductive Crash where
  /-- A local variable is read before it has a value. -/
  | missingName (name : String)
  /-- A result is taken and there is none. -/
  | noResult
  /-- A file is not UTF-8. -/
  | notUtf8 (e : Text.Utf8Error)
  /-- A path holds the character that ends paths. -/
  | nulInPath
  /-- A text is nested too deeply, and nothing stands ready to report it. -/
  | tooDeep
  /-- Any other failure, by its kind and its text. -/
  | other (kind text : String)
deriving DecidableEq, Repr

namespace Crash

/-- The name of the kind of a crash. -/
def kind : Crash → String
  | missingName _ => "KeyError"
  | noResult => "IndexError"
  | notUtf8 _ => "UnicodeDecodeError"
  | nulInPath => "ValueError"
  | tooDeep => "RecursionError"
  | other kind _ => kind

/-- The reason why bytes are not UTF-8. -/
def utf8Reason : Text.Utf8Fault → String
  | .invalidStart => "invalid start byte"
  | .invalidContinuation => "invalid continuation byte"
  | .endOfData => "unexpected end of data"

/-- Which bytes are not UTF-8, and why. -/
def utf8Text (e : Text.Utf8Error) : String :=
  let place :=
    if e.stop = e.start + 1 then
      "byte 0x" ++ String.ofList (Text.hexDigits 2 e.first.toNat) ++ " in position " ++
        toString e.start
    else "bytes in position " ++ toString e.start ++ "-" ++ toString (e.stop - 1)
  "'utf-8' codec can't decode " ++ place ++ ": " ++ utf8Reason e.fault

/-- What a crash says. -/
def text : Crash → String
  | missingName name => Text.quoted name
  | noResult => "pop from empty list"
  | notUtf8 e => utf8Text e
  | nulInPath => "embedded null byte"
  | tooDeep => "maximum recursion depth exceeded"
  | other _ text => text

end Crash

/-- What leaves a part of the program before its end. -/
inductive Escape where
  | error (e : LanguageError)
  | interrupt
  | exit (status : String)
  | crash (c : Crash)
deriving DecidableEq, Repr

/-- The diagnostics reported so far, the two flags, and whether an error that is thrown ends the
program. -/
structure Log where
  diagnostics : Array Diagnostic := #[]
  hadError : Bool := false
  hadRuntimeError : Bool := false
  fatal : Bool := false
deriving DecidableEq

namespace Log

/-- Takes both flags down. -/
def reset (log : Log) : Log := { log with hadError := false, hadRuntimeError := false }

/-- Adds a diagnostic and leaves the flags alone. -/
def report (log : Log) (d : Diagnostic) : Log := { log with diagnostics := log.diagnostics.push d }

/-- Reports a static error. -/
def staticError (log : Log) (site : Site) (message : String) : Log :=
  { log with hadError := true }.report ⟨some site.line, site.context, message⟩

/-- Reports an error as a runtime error, of whatever kind it is. -/
def runtimeError (log : Log) (e : LanguageError) : Log :=
  { log with hadRuntimeError := true }.report e.diagnostic

/-- Reports an error that nothing else has reported. If the log is fatal, the program is left. -/
def throw (log : Log) (e : LanguageError) : Log × Option Escape :=
  let log := match e.kind with
    | .runtime => log.runtimeError e
    | _ => { log with hadError := true }.report e.diagnostic
  (log, if log.fatal then some (.exit "1") else none)

/-- The error that a crash is reported as. -/
def unknown (c : Crash) : LanguageError :=
  ⟨.general, none, "unknown error: '" ++ c.kind ++ ": " ++ c.text ++ "'", true⟩

/-- Deals with what leaves a guarded part of the program, and gives what goes on to leave it. -/
def guard (log : Log) : Option Escape → Log × Option Escape
  | none => (log, none)
  | some .interrupt => (log.report ⟨none, "", "keyboard interrupt"⟩, none)
  | some (.exit status) => (log, some (.exit status))
  | some (.error e) => log.throw e
  | some (.crash c) =>
    match log.throw (unknown c) with
    | (log, some escape) => (log, some escape)
    | (log, none) => (log, some (.crash c))

/-- Reports the faults of a scan. -/
def scanFaults (log : Log) (faults : List (Int × ScanFault)) : Log :=
  faults.foldl (fun log (line, f) => log.staticError (.onLine line) f.message) log

/-- The diagnostics as lines of output. -/
def text (log : Log) : String :=
  log.diagnostics.foldl (fun out d => out ++ d.text ++ "\n") ""

end Log

end Treewalk
