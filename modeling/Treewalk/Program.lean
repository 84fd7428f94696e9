import Treewalk.Diagnostic.Log
import Treewalk.Grammar.Statement
import Treewalk.Scope.Resolve

/-!
# Reading programs

From a scan to a program, with everything that is wrong reported to a log: first the faults of the
scan, then the errors of the grammar, and last, if there was none of these, what resolving finds. The
grammar is read even if the scan has faults.
-/

namespace Treewalk

/-- How deeply constructs and trees may be nested, and calls during a run with them. -/
structure Limits where
  /-- Levels of nested constructs that are read. -/
  grammar : Nat
  /-- Levels of nested nodes that are resolved. -/
  tree : Nat
  /-- Levels of nested nodes, those of called routines included, that are run. -/
  run : Nat
  /-- Rounds of one loop that are run. -/
  rounds : Nat

/-- Programs have at most 300 levels. A run has at most 450, and it may go round in a loop so often
that no run comes to an end because of it. -/
def Limits.standard : Limits := ⟨300, 300, 450, 1000000000000000000⟩

namespace Log

/-- Reports errors of the grammar of a text that ends on the given line. -/
def syntaxErrors (log : Log) (endLine : Int) (errors : List SyntaxError) : Log :=
  errors.foldl (fun log e => log.staticError (.ofToken? endLine e.place) e.fault.message) log

/-- Scans a text that begins on the given line, and reports its faults. -/
def scanText (log : Log) (text : String) (line : Int) : Log × Scan :=
  let scan := Scan.ofText text line
  (log.scanFaults scan.faults, scan)

/-- Reads the program of a scan and reports its errors. There is no program if the text is nested too
deeply. -/
def readProgram (log : Log) (limits : Limits) (scan : Scan) :
    Log × Option (List (Stmt Unit)) :=
  let parsed := parseProgram limits.grammar scan.tokens
  (log.syntaxErrors scan.endLine parsed.errors, parsed.outcome.toOption)

/-- Reports misuses of names. -/
def misuses (log : Log) : List Finding → Log
  | [] => log
  | .misuse place what :: findings =>
    (log.staticError (.atToken place.text place.line) what.message).misuses findings
  | .tooDeep :: findings => log.misuses findings

/-- Resolves a program and reports what is found, up to a node that is nested too deeply, if there is
one. There is no resolved program then. -/
def resolveProgram (log : Log) (limits : Limits) (program : List (Stmt Unit)) :
    Log × Option (List (Stmt Address)) :=
  let resolved := Treewalk.resolveProgram limits.tree program
  (log.misuses (resolved.findings.takeWhile (· ≠ .tooDeep)),
    if .tooDeep ∈ resolved.findings then none else some resolved.value)

end Log

end Treewalk
