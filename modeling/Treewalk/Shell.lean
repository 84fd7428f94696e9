import Treewalk.Session
import Treewalk.Text.Blank

/-!
# The shell

A shell reads lines and runs them in its session. A line that leaves braces or parentheses open is kept
until further lines close them, and then all of them are run as one unit. The results of a unit are
shown after it. Three words are commands of the shell and no program text: `EOF` at any time, `help`
and `exit` while no lines are kept.
-/

namespace Treewalk

/-- A shell: its session, and the lines that wait for more, each with a line feed. -/
structure Shell where
  session : Session
  pending : String := ""

/-- What becomes of a shell after a line: it goes on, it stops, or something leaves it. -/
inductive Reaction where
  | goOn
  | stop
  | escaped (e : Escape)

/-- What a shell makes of a line. -/
inductive Turn where
  /-- The input is at its end. -/
  | leave
  /-- There is nothing on the line. -/
  | pass
  | help
  | exit
  /-- The lines so far leave something open: this text waits for more. -/
  | keep (text : String)
  /-- The lines so far are a unit with this text. -/
  | run (text : String)

namespace Shell

/-- What a shell shows when it starts. -/
def intro : String := "lox interpreter :: Python backend\nType 'help' for more information.\n"

/-- What the command `help` shows. -/
def help : String :=
  "Welcome to the lox interpreter!\n\n" ++
  "lox is a small dynamically typed language with first-class functions, closures and classes.\n" ++
  "Statements end with ';'. Try 'var x = 40 + 2;' followed by 'x;', or define a function with\n" ++
  "'fn add(a, b) \x7b return a + b; \x7d'. The value of a trailing expression is shown after '=>'.\n" ++
  "Type 'exit' or press Ctrl-D to leave.\n"

/-- What a shell shows before it reads a line. -/
def prompt (s : Shell) : String := if s.pending = "" then "> " else ". "

/-- The lines of the pending results. -/
def shown (results : List Value) : String :=
  String.join (results.map fun v => "=> " ++ v.display ++ "\n")

/-- Runs a unit and shows its results. Errors are on record in the log; a crash is reported and
leaves the shell. -/
def runUnit (s : Session) (text : String) : Shell × Reaction × String :=
  match s.execute text with
  | (s, .ok _) => (⟨{ s with results := [] }, ""⟩, .goOn, shown s.results)
  | (s, .error escape) =>
    let (log, leaving) := s.log.guard (some escape)
    (⟨{ s with log := log }, ""⟩, (leaving.map Reaction.escaped).getD .goOn, "")

/-- What is made of a line of program text: it is kept if it leaves something open, and run otherwise. -/
def codeTurn (s : Shell) (line : String) : Turn :=
  let text := if s.pending = "" then line else s.pending ++ line ++ "\n"
  if needsContinuation text then
    .keep (if text.toList.getLast? = some '\n' then text else text ++ "\n")
  else .run text

/-- What is made of a line. -/
def turn (s : Shell) (line : String) : Turn :=
  let command := String.ofList (Text.trimmed line.toList)
  if command = "EOF" then .leave
  else if line = "" then .pass
  else if s.pending = "" ∧ command = "help" then .help
  else if s.pending = "" ∧ command = "exit" then .exit
  else s.codeTurn line

/-- Takes a line. The text is what the shell itself shows; what the program prints is in the session. -/
def takeLine (s : Shell) (line : String) : Shell × Reaction × String :=
  match s.turn line with
  | .leave => (s, .stop, "\n")
  | .pass => (s, .goOn, "")
  | .help => (s, .goOn, help)
  | .exit => (s, .stop, "")
  | .keep text => ({ s with pending := text }, .goOn, "")
  | .run text => runUnit s.session text

/-- What was printed between two moments of a session. -/
def printedSince (before after : Session) : String :=
  (after.printed.toList.drop before.printed.size).foldl (fun out line => out ++ line ++ "\n") ""

/-- Takes lines until the shell stops or is left; the end of the lines stops it too. The text is all
that is shown and printed: the prompts, what the program prints and what the shell shows. -/
def takeLines (s : Shell) (out : String) : List String → Shell × Option Escape × String
  | [] =>
    let (s', _, shown) := s.takeLine "EOF"
    (s', none, out ++ s.prompt ++ shown)
  | line :: lines =>
    let (s', reaction, shown) := s.takeLine line
    let out := out ++ s.prompt ++ printedSince s.session s'.session ++ shown
    match reaction with
    | .goOn => s'.takeLines out lines
    | .stop => (s', none, out)
    | .escaped e => (s', some e, out)

end Shell

end Treewalk
