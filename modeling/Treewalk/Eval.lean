import Treewalk.Eval.Basic

/-!
# Evaluation

Expressions are evaluated, statements are executed and values are called, by recursion on the depth
that a run may still have: every node inside another and every call takes one level of it. Operands
are evaluated from the left. A statement in the body of a routine that returns ends the body, however
many blocks, conditionals and loops are around it.
-/

namespace Treewalk

/-- The table of a routine's own frame: its parameters with the arguments. -/
def parameterTable (parameters : List Name) (arguments : List Value) : Bindings Value :=
  (parameters.zip arguments).foldl (fun table (p, v) => table.put p.text v) {}

/-- The methods of a class, closed over its environment. The last of equal names counts. -/
def methodTable (e : Environment) (methods : List (Name × Routine Address)) : Bindings Closure :=
  methods.foldl (fun table (name, routine) =>
    table.put name.text ⟨some name.text, routine, e, decide (name.text = initializerName)⟩) {}

open Eval

mutual

/-- The value of an expression in an environment. -/
def evaluate (host : Host) : Nat → Environment → Expr Address → Eval Value
  | 0, _, _ => throw (.overflow none)
  | depth + 1, e, expr =>
    match expr with
    | .literal value => return value.value
    | .grouping inner => evaluate host depth e inner
    | .unary op line operand => do
      operator line (op.apply (← evaluate host depth e operand))
    | .binary op line left right => do
      let left ← evaluate host depth e left
      operator line (op.apply left (← evaluate host depth e right))
    | .logical op left right => do
      let left ← evaluate host depth e left
      if op.isDecided left then return left else evaluate host depth e right
    | .variable name address => host.access.read e name address
    | .assign name address value => do
      let v ← evaluate host depth e value
      host.access.write e name address v
      return v
    | .call callee line arguments => do
      let callee ← evaluate host depth e callee
      let arguments ← arguments.mapM (evaluate host depth e)
      -- Whether there is anything to call is not asked before the arguments have been evaluated.
      checkCall line callee arguments.length
      onLine line (call host depth callee arguments)
    | .get object name => do
      property (← evaluate host depth e object) name
    | .set object name value => do
      -- Only for an instance is the value evaluated at all.
      match ← evaluate host depth e object with
      | .object identity _ =>
        let v ← evaluate host depth e value
        setField identity name.text v
        return v
      | _ => faultAt name.line .noFields
    | .this line address => host.access.read e ⟨thisName, line⟩ address
    | .lambda routine => newFunction ⟨none, routine, e, false⟩

/-- Executes a statement in an environment. -/
def execute (host : Host) : Nat → Environment → Stmt Address → Eval Outcome
  | 0, _, _ => throw (.overflow none)
  | depth + 1, e, stmt =>
    match stmt with
    | .expression value => do
      let _ ← evaluate host depth e value
      return .normal
    | .print value => do
      print (← evaluate host depth e value).display
      return .normal
    | .var name initializer => do
      let v ← match initializer with
        | some value => evaluate host depth e value
        | none => pure .nil
      define e.own name.text v
      return .normal
    | .block body => do
      inOrder (execute host depth (← extend e {})) body
    | .branch condition onTrue onFalse => do
      if (← evaluate host depth e condition).isTruthy then execute host depth e onTrue
      else
        match onFalse with
        | some s => execute host depth e s
        | none => return .normal
    | .while condition body =>
      loop (round (evaluate host depth e condition) (execute host depth e body)) host.rounds
    | .function name routine => do
      define e.own name.text (← newFunction ⟨some name.text, routine, e, false⟩)
      return .normal
    | .return _ value => do
      match value with
      | some value => return .returned (← evaluate host depth e value)
      | none => return .returned .nil
    | .class name methods => do
      define e.own name.text (.class (← newIdentity) ⟨name.text, methodTable e methods⟩)
      return .normal

/-- Calls a value with arguments, of which it has been checked that there are enough. Calling a class
makes an instance and calls its initializer, which gives back the instance it is bound to. -/
def call (host : Host) : Nat → Value → List Value → Eval Value
  | 0, _, _ => throw (.overflow none)
  | depth + 1, callee, arguments =>
    match callee with
    | .native index _ =>
      match host.natives[index]? with
      | some native => callNative index native arguments
      | none => throw (.fault none .notCallable)
    | .function _ closure => do
      let e ← extend closure.environment (parameterTable closure.routine.parameters arguments)
      let outcome ← inOrder (execute host depth e) closure.routine.body
      -- An initializer gives its receiver back, whatever it returns.
      if closure.isInitializer then
        read closure.environment ⟨thisName, 0⟩ (.scope 0)
      else
        match outcome with
        | .returned v => return v
        | .normal => return .nil
    | .class _ c => do
      let receiver ← newObject c
      if let some m := c.methods.find? initializerName then
        let _ ← call host depth (← bindMethod m receiver) arguments
      return receiver
    | _ => throw (.fault none .notCallable)

end

/-- Runs a statement of a program in the global environment. The result is the value of an expression
statement. -/
def runStatement (host : Host) (depth : Nat) : Stmt Address → Eval (Option Value)
  | .expression value => some <$> evaluate host depth (.outermost globalFrame) value
  | s => do
    let _ ← execute host depth (.outermost globalFrame) s
    return none

/-- Runs the statements of a program one after another. The result is that of the last of them. -/
def runProgram (host : Host) (depth : Nat) (program : List (Stmt Address)) : Eval (Option Value) :=
  program.foldlM (fun _ s => runStatement host depth s) none

end Treewalk
