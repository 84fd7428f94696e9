import Mathlib.Tactic.DeprecateTo
import Treewalk.CommandLine

/-!
# The program

Reads the arguments, a file or the lines of a terminal, and writes what the library makes of them. A
session takes all readings of its clock at once, so the clock is read when the program starts, and the
readings go on from there.
-/

open Treewalk

/-- The bytes of a file, if it can be opened. -/
def readBytes? (path : String) : IO (Option (List UInt8)) := do
  try
    return some (← IO.FS.readBinFile path).toList
  catch _ =>
    return none

/-- The seconds since the beginning of the year 1970. -/
def seconds : IO Float := do
  let moment ← Std.Time.Timestamp.now
  return Float.ofInt moment.toNanosecondsSinceUnixEpoch.val / 1000000000

/-- The readings of a clock that starts at a moment. Each is a microsecond after the one before. -/
def readingsFrom (start : Float) : Nat → Float := fun n => start + n.toFloat / 1000000

/-- Reads lines for a shell until it stops, and gives the exit code. -/
partial def serve (input output errors : IO.FS.Stream) (shell : Shell) : IO UInt32 := do
  output.putStr shell.prompt
  output.flush
  let line ← input.getLine
  let text := if line.isEmpty then "EOF" else String.ofList (line.toList.filter (· ≠ '\n'))
  let (after, reaction, shown) := shell.takeLine text
  output.putStr (Shell.printedSince shell.session after.session ++ shown)
  for d in after.session.log.diagnostics.toList.drop shell.session.log.diagnostics.size do
    errors.putStrLn d.text
  match reaction with
  | .goOn => serve input output errors after
  | .stop => return 0
  | .escaped _ => return 1

/-- Runs a command line. -/
def main (arguments : List String) : IO UInt32 := do
  let output ← IO.getStdout
  let errors ← IO.getStderr
  let time := readingsFrom (← seconds)
  match CommandLine.plan arguments with
  | .serve ⟨none, _, _⟩ =>
    output.putStr Shell.intro
    serve (← IO.getStdin) output errors ⟨.new time, ""⟩
  | .serve ⟨some path, tokens, ast⟩ =>
    let content ← readBytes? path
    let ending := CommandLine.serveFile time ⟨some path, tokens, ast⟩ path content
    output.putStr ending.out
    errors.putStr ending.err
    return UInt32.ofNat (ending.code.getD 1)
  | _ =>
    let ending := CommandLine.run time (fun _ => none) "" arguments
    output.putStr ending.out
    errors.putStr ending.err
    return UInt32.ofNat (ending.code.getD 1)
