import Treewalk.Token

/-!
# Diagnostics

A diagnostic has a line, unless it concerns no line, a context and a message. `Site` is a place that a
static error is found at, from which the line and the context follow, and `LanguageError` is an error
that the language itself defines, as it travels until it is reported.
-/

namespace Treewalk

/-- One reported error. -/
structure Diagnostic where
  line : Option Int
  context : String
  message : String
deriving DecidableEq, Repr

/-- A diagnostic as one line of output, without its end. -/
def Diagnostic.text (d : Diagnostic) : String :=
  (match d.line with
    | some line => "[line " ++ toString line ++ "] "
    | none => "") ++ "error" ++ d.context ++ ": " ++ d.message

/-- A place in a text: a line, a token, or the end. -/
inductive Site where
  | onLine (line : Int)
  | atToken (written : String) (line : Int)
  | atEnd (line : Int)
deriving DecidableEq, Repr

namespace Site

/-- The line of a place. -/
def line : Site → Int
  | onLine line | atToken _ line | atEnd line => line

/-- How a diagnostic names a place beside its line. -/
def context : Site → String
  | onLine _ => ""
  | atToken written _ => " at '" ++ written ++ "'"
  | atEnd _ => " at end"

/-- The place of a token, and the end of the text where there is none. -/
def ofToken? (endLine : Int) : Option Token → Site
  | some t => atToken t.lexeme.written t.line
  | none => atEnd endLine

end Site

/-- What an error that the language defines is about: its syntax, a run, or neither. -/
inductive ErrorKind where
  | general
  | grammar
  | runtime
deriving DecidableEq, Repr

/-- An error that the language defines. An internal one is a fault of the interpreter, or of a native
function, and no fault of the program. -/
structure LanguageError where
  kind : ErrorKind
  line : Option Int
  message : String
  internal : Bool
deriving DecidableEq, Repr

/-- The diagnostic of an error of the language. -/
def LanguageError.diagnostic (e : LanguageError) : Diagnostic :=
  ⟨e.line, if e.internal then " [internal]" else "", e.message⟩

end Treewalk
