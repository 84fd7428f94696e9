import Treewalk.Text.Digit
import Treewalk.Text.Quoted

/-!
# Command-line arguments

A command line names at most one file, and switches say what to do with it. A long switch may be
shortened as long as it stays unique, short switches may be run together, and after `--` every argument
is the name of a file. Arguments without a place are collected and refused together, at the end.
-/

namespace Treewalk.CommandLine

/-- The switches of the command line. -/
inductive Switch where
  | help
  | tokens
  | ast
deriving DecidableEq, Repr

/-- The spellings of a switch. -/
def Switch.spellings : Switch → List String
  | help => ["-h", "--help"]
  | tokens => ["--tokens"]
  | ast => ["--ast"]

/-- All spellings of switches, in the order in which they are listed. -/
def spellings : List (String × Switch) :=
  [Switch.help, .tokens, .ast].flatMap fun s => s.spellings.map fun spelling => (spelling, s)

/-- How messages name a switch. -/
def Switch.name (s : Switch) : String := "/".intercalate s.spellings

/-- What is wrong with a command line. -/
inductive UsageFault where
  | unrecognized (arguments : List String)
  | notAllowedWith (later earlier : Switch)
  | ignoredValue (s : Switch) (value : String)
  | ambiguous (argument : String) (candidates : List String)
deriving DecidableEq, Repr

/-- The message for a wrong command line. -/
def UsageFault.message : UsageFault → String
  | unrecognized arguments => "unrecognized arguments: " ++ " ".intercalate arguments
  | notAllowedWith later earlier =>
    "argument " ++ later.name ++ ": not allowed with argument " ++ earlier.name
  | ignoredValue s value =>
    "argument " ++ s.name ++ ": ignored explicit argument " ++ Text.quoted value
  | ambiguous argument candidates =>
    "ambiguous option: " ++ argument ++ " could match " ++ ", ".intercalate candidates

/-- What one argument is. -/
inductive Argument where
  | file (name : String)
  | separator
  | switch (s : Switch)
  | unknown (text : String)
  /-- A switch with a value, which none of them takes. -/
  | valued (s : Switch) (value : String)
deriving DecidableEq, Repr

/-- A text without the line feed at its end, if it has one. -/
def withoutLineFeed (text : List Char) : List Char :=
  if text.getLast? = some '\n' then text.dropLast else text

/-- Whether a text is a minus and a number, which is no switch. A line feed may follow the number. -/
def isNegativeNumber : List Char → Bool
  | '-' :: cs =>
    let number := withoutLineFeed cs
    let rest := number.dropWhile Text.isDigit
    (number ≠ [] && rest = []) ||
      (rest.head? = some '.' && rest.tail ≠ [] && rest.tail.all Text.isDigit)
  | _ => false

/-- A text before and after its first equals sign. -/
def splitValue (text : List Char) : List Char × Option (List Char) :=
  match text.dropWhile (· ≠ '=') with
  | _ :: value => (text.takeWhile (· ≠ '='), some value)
  | [] => (text, none)

/-- What a switch with an optional value is. -/
def withValue (s : Switch) : Option (List Char) → Argument
  | some value => .valued s (String.ofList value)
  | none => .switch s

/-- Short switches that are run together: what follows the first one. Only one switch is short, so all
from the first other character on can only be a value. -/
def shortSwitches : List Char → Argument
  | [] => .switch .help
  | 'h' :: cs => shortSwitches cs
  | cs => .valued .help (String.ofList cs)

/-- What an argument before a separator is. An equals sign behind a short switch is passed over, unless
nothing follows it. -/
def classify (argument : String) : Except UsageFault Argument :=
  let text := argument.toList
  match text with
  | '-' :: '-' :: _ =>
    let (name, value) := splitValue text
    match spellings.lookup (String.ofList name) with
    | some s => .ok (withValue s value)
    | none =>
      match spellings.filter fun (spelling, _) => name.isPrefixOf spelling.toList with
      | [(_, s)] => .ok (withValue s value)
      | [] => .ok (unswitched text)
      | several => .error (.ambiguous argument (several.map Prod.fst))
  | ['-', 'h', '='] => .ok (.valued .help "")
  | '-' :: 'h' :: '=' :: more | '-' :: 'h' :: more => .ok (shortSwitches more)
  | '-' :: _ :: _ => .ok (unswitched text)
  | _ => .ok (.file argument)
where
  /-- What an argument is that begins with a minus and is no switch. -/
  unswitched (text : List Char) : Argument :=
    if isNegativeNumber text ∨ ' ' ∈ text then .file (String.ofList text)
    else .unknown (String.ofList text)

/-- What the arguments are. Behind the first separator all are files. -/
def classifyAll : List String → Except UsageFault (List Argument)
  | [] => .ok []
  | argument :: arguments =>
    if argument = "--" then .ok (.separator :: arguments.map .file)
    else do return (← classify argument) :: (← classifyAll arguments)

/-- What a command line asks for: a file, if it names one, and what to do with it. -/
structure Request where
  file : Option String := none
  tokens : Bool := false
  ast : Bool := false
deriving DecidableEq, Repr

/-- What to do for a command line. -/
inductive Plan where
  | help
  | refuse (f : UsageFault)
  | serve (r : Request)
deriving DecidableEq, Repr

/-- Goes through the arguments, with the request so far, the arguments that had no place, and whether
the last argument was taken as the file: a separator right behind the file belongs to it. -/
def collect (r : Request) (extra : List String) (justTaken : Bool) : List Argument → Plan
  | [] => if extra = [] then .serve r else .refuse (.unrecognized extra)
  | .file name :: arguments =>
    match r.file with
    | none => collect { r with file := some name } extra true arguments
    | some _ => collect r (extra ++ [name]) false arguments
  | .separator :: arguments =>
    if r.file.isNone || justTaken then collect r extra false arguments
    else collect r (extra ++ ["--"]) false arguments
  | .unknown text :: arguments => collect r (extra ++ [text]) false arguments
  | .valued s value :: _ => .refuse (.ignoredValue s value)
  | .switch .help :: _ => .help
  | .switch .tokens :: arguments =>
    if r.ast then .refuse (.notAllowedWith .tokens .ast)
    else collect { r with tokens := true } extra false arguments
  | .switch .ast :: arguments =>
    if r.tokens then .refuse (.notAllowedWith .ast .tokens)
    else collect { r with ast := true } extra false arguments

/-- What to do for a command line. -/
def plan (arguments : List String) : Plan :=
  match classifyAll arguments with
  | .ok arguments => collect {} [] false arguments
  | .error f => .refuse f

/-- The usage line. -/
def usage : String := "usage: lox [-h] [--tokens | --ast] [file]\n"

/-- What the switch for help shows. -/
def help : String :=
  usage ++
  "\nTree-walking interpreter for the lox language.\n" ++
  "\npositional arguments:\n" ++
  "  file        file to interpret and run (if empty, goes to command-line mode)\n" ++
  "\noptions:\n" ++
  "  -h, --help  show this help message and exit\n" ++
  "  --tokens    print the token stream of file and exit\n" ++
  "  --ast       print the syntax tree of file and exit\n"

end Treewalk.CommandLine
