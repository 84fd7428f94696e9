import Treewalk.CommandLine.Arguments
import Treewalk.Shell

/-!
# The command line

What a command line does, given the files that can be opened and the lines that can be read: it runs a
file, lists its tokens or shows its outline, or it starts a shell if no file is named. The exit code
tells a static error from a runtime error and from a file that cannot be opened.
-/

namespace Treewalk.CommandLine

/-- How a command ends: its exit code, unless something leaves it, and what it wrote. -/
structure Ending where
  code : Option Nat
  out : String
  err : String
  escape : Option Escape
deriving DecidableEq

/-- The exit code of a wrong command line. -/
def usageCode : Nat := 2

/-- The exit code after a static error. -/
def staticErrorCode : Nat := 64

/-- The exit code for a file that cannot be opened. -/
def unreadableCode : Nat := 66

/-- The exit code after a runtime error. -/
def runtimeErrorCode : Nat := 70

/-- The exit code that a log calls for. -/
def exitCode (log : Log) : Nat :=
  if log.hadError then staticErrorCode else if log.hadRuntimeError then runtimeErrorCode else 0

/-- The end of a command whose work on a file left the given log, output, and possibly more. What
leaves the work is dealt with by the log. -/
def endOfWork (log : Log) (out : String) (leaving : Option Escape) : Ending :=
  match log.guard leaving with
  | (log, none) => ⟨some (exitCode log), out, log.text, none⟩
  | (log, some escape) => ⟨none, out, log.text, some escape⟩

/-- Lists the tokens of a text, or shows its outline if it has no errors. -/
def describe (tokens : Bool) (text : String) : Ending :=
  let (log, scan) := ({} : Log).scanText text 1
  if tokens then endOfWork log (String.join (scan.listing.map (· ++ "\n"))) none
  else
    match log.readProgram .standard scan with
    | (log, none) => endOfWork log "" (some (.crash .tooDeep))
    | (log, some program) =>
      endOfWork log (if log.hadError then "" else programOutline program ++ "\n") none

/-- Runs a text as the only unit of a new session. -/
def runText (time : Nat → Float) (text : String) : Ending :=
  let session := Session.new time
  let (after, outcome) := session.execute text
  let leaving := match outcome with
    | .ok _ => none
    | .error escape => some escape
  endOfWork after.log (Shell.printedSince session after) leaving

/-- Serves a request about a file, given its bytes if it can be opened. Nothing stands ready yet to
report a path that cannot be a path. -/
def serveFile (time : Nat → Float) (r : Request) (path : String) (content : Option (List UInt8)) :
    Ending :=
  if '\x00' ∈ path.toList then ⟨none, "", "", some (.crash .nulInPath)⟩
  else
    match content with
    | none =>
      let log := ({} : Log).report (Session.notOpened path).diagnostic
      ⟨some unreadableCode, "", log.text, none⟩
    | some bytes =>
      match Session.fileText bytes with
      | .error escape => endOfWork {} "" (some escape)
      | .ok text => if r.tokens || r.ast then describe r.tokens text else runText time text

/-- The lines of an input: it ends after its last line feed, or else after a last line without one. -/
def inputLines (input : String) : List String :=
  let lines := input.splitOn "\n"
  if lines.getLast? = some "" then lines.dropLast else lines

/-- Runs a shell over an input. -/
def serveShell (time : Nat → Float) (input : String) : Ending :=
  let (shell, leaving, out) := (⟨.new time, ""⟩ : Shell).takeLines Shell.intro (inputLines input)
  match leaving with
  | none => ⟨some 0, out, shell.session.log.text, none⟩
  | some escape => ⟨none, out, shell.session.log.text, some escape⟩

/-- What a command line does, with what is in the files that can be opened and what can be read. -/
def run (time : Nat → Float) (files : String → Option (List UInt8)) (input : String)
    (arguments : List String) : Ending :=
  match plan arguments with
  | .help => ⟨some 0, help, "", none⟩
  | .refuse f => ⟨some usageCode, "", usage ++ "lox: error: " ++ f.message ++ "\n", none⟩
  | .serve r =>
    match r.file with
    | some path => serveFile time r path (files path)
    | none => serveShell time input

end Treewalk.CommandLine
