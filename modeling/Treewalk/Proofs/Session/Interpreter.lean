import Treewalk.Proofs.Session.History

/-!
# Interpreters

A run carries its environment along, from a node to its parts. An interpreter keeps it in its state
instead: a block or a call sets it for the time of its body and puts the one before back, however the
body is left. It also keeps for each frame the environment that encloses the frame. Otherwise it does
what a run does, and so both come to the same (`Interpreter.follows_runProgram`).
-/

namespace Treewalk

/-- The state of an interpreter: the store, what encloses each of the frames, and the environment of the
code that runs. -/
structure Interpreter where
  store : Store
  /-- For each frame the environment that it was made in. The global frame has none. -/
  enclosing : List (Option Environment)
  environment : Environment

namespace Interpreter

/-- A step of an interpreter. -/
abbrev Run := EStateM Stop Interpreter

/-! ## Evaluation with an environment in the state -/

section

variable {α : Type}

/-- A step that works on the store alone. -/
def onStore (x : Eval α) : Run α := fun i =>
  match x i.store with
  | .ok a s => .ok a { i with store := s }
  | .error stop s => .error stop { i with store := s }

/-- The environment of the code that runs. -/
def current : Run Environment := return (← get).environment

/-- Makes a frame inside an environment. -/
def extend (e : Environment) (table : Bindings Value) : Run Environment := do
  let inner ← onStore (Eval.extend e table)
  modify fun i => { i with enclosing := i.enclosing ++ [some e] }
  return inner

/-- A step in another environment. The environment before is put back however the step ends. -/
def within (e : Environment) (x : Run α) : Run α := fun i =>
  match x { i with environment := e } with
  | .ok a i' => .ok a { i' with environment := i.environment }
  | .error stop i' => .error stop { i' with environment := i.environment }

end

/-- A method bound to its instance. -/
def bindMethod (m : Closure) (receiver : Value) : Run Value := do
  let e ← extend m.environment (({} : Bindings Value).put thisName receiver)
  onStore (Eval.newFunction { m with environment := e })

/-- A property of a value. -/
def property (v : Value) (name : Name) : Run Value :=
  match v with
  | .object identity c => do
    match (← get).store.fields.find? identity name.text with
    | some field => pure field
    | none =>
      match c.methods.find? name.text with
      | some m => bindMethod m v
      | none => throw (.fault (some name.line) (.undefinedProperty name.text))
  | _ => throw (.fault (some name.line) .noProperties)

/-- A property of an instance: its fields come first, and then the methods of its class. -/
theorem property_object (k : Nat) (c : Class) (name : Name) (i : Interpreter) :
    property (.object k c) name i =
      match i.store.fields.find? k name.text with
      | some field => .ok field i
      | none =>
        match c.methods.find? name.text with
        | some m => bindMethod m (.object k c) i
        | none => .error (.fault (some name.line) (.undefinedProperty name.text)) i := by
  change (match i.store.fields.find? k name.text with
    | some field => (pure field : Run Value)
    | none =>
      match c.methods.find? name.text with
      | some m => bindMethod m (.object k c)
      | none => throw (Stop.fault (some name.line) (.undefinedProperty name.text))) i = _
  cases i.store.fields.find? k name.text with
  | some field => rfl
  | none => cases c.methods.find? name.text <;> rfl

/-- Does what a native function asks for. -/
def answer : Request → Run Answer
  | .property object name => do
    let i ← get
    let v := Eval.named i.store object
    if Eval.hasProperty i.store v name then
      let w ← property v ⟨name, 0⟩
      onStore (Eval.reveal w)
    else return .nothing
  | r => onStore (Eval.answer r)

/-- Does the work of a native function. -/
def perform : Work → Run Value
  | .give v => do return Eval.named (← get).store v
  | .fail line message internal => throw (.fault line (.native message internal))
  | .raise kind text => throw (.raised kind text)
  | .ask r next => do
    let a ← answer r
    onStore (Eval.record a)
    perform (next a)

/-- Calls the native function with a number. -/
def callNative (index : Nat) (native : Native) (arguments : List Value) : Run Value := do
  onStore (Eval.announce index arguments)
  perform (native (← get).store.events)

/-- Runs statements up to the first that returns. -/
def inOrder (exec : Stmt Address → Run Outcome) : List (Stmt Address) → Run Outcome
  | [] => return .normal
  | s :: ss => do
    match ← exec s with
    | .normal => inOrder exec ss
    | .returned v => return .returned v

/-- A round of a loop. -/
def round (condition : Run Value) (body : Run Outcome) : Run (Option Outcome) := do
  if (← condition).isTruthy then some <$> body else return none

/-- Runs rounds of a loop. -/
def loop (round : Run (Option Outcome)) : Nat → Run Outcome
  | 0 => throw .unfinished
  | rounds + 1 => do
    match ← round with
    | none => return .normal
    | some .normal => loop round rounds
    | some (.returned v) => return .returned v

/-- The value of a call on a line. -/
def onLine (line : Int) (call : Run Value) : Run Value := fun i =>
  match call i with
  | .error (.overflow none) i => .error (.overflow (some line)) i
  | result => result

mutual

/-- The value of an expression. -/
def evaluate (host : Host) : Nat → Expr Address → Run Value
  | 0, _ => throw (.overflow none)
  | depth + 1, expr =>
    match expr with
    | .literal value => return value.value
    | .grouping inner => evaluate host depth inner
    | .unary op line operand => do
      let v ← evaluate host depth operand
      onStore (Eval.operator line (op.apply v))
    | .binary op line left right => do
      let v ← evaluate host depth left
      let w ← evaluate host depth right
      onStore (Eval.operator line (op.apply v w))
    | .logical op left right => do
      let v ← evaluate host depth left
      if op.isDecided v then return v else evaluate host depth right
    | .variable name address => do
      let e ← current
      onStore (host.access.read e name address)
    | .assign name address value => do
      let v ← evaluate host depth value
      let e ← current
      onStore (host.access.write e name address v)
      return v
    | .call callee line arguments => do
      let f ← evaluate host depth callee
      let vs ← arguments.mapM (evaluate host depth)
      onStore (Eval.checkCall line f vs.length)
      onLine line (call host depth f vs)
    | .get object name => do
      let v ← evaluate host depth object
      property v name
    | .set object name value => do
      match ← evaluate host depth object with
      | .object identity _ =>
        let v ← evaluate host depth value
        onStore (Eval.setField identity name.text v)
        return v
      | _ => throw (.fault (some name.line) .noFields)
    | .this line address => do
      let e ← current
      onStore (host.access.read e ⟨thisName, line⟩ address)
    | .lambda routine => do
      let e ← current
      onStore (Eval.newFunction ⟨none, routine, e, false⟩)

/-- Executes a statement. -/
def execute (host : Host) : Nat → Stmt Address → Run Outcome
  | 0, _ => throw (.overflow none)
  | depth + 1, stmt =>
    match stmt with
    | .expression value => do
      let _ ← evaluate host depth value
      return .normal
    | .print value => do
      let v ← evaluate host depth value
      onStore (Eval.print v.display)
      return .normal
    | .var name initializer => do
      let v ← match initializer with
        | some value => evaluate host depth value
        | none => pure .nil
      let e ← current
      onStore (Eval.define e.own name.text v)
      return .normal
    | .block body => do
      let e ← current
      let inner ← extend e {}
      within inner (inOrder (execute host depth) body)
    | .branch condition onTrue onFalse => do
      if (← evaluate host depth condition).isTruthy then execute host depth onTrue
      else
        match onFalse with
        | some s => execute host depth s
        | none => return .normal
    | .while condition body =>
      loop (round (evaluate host depth condition) (execute host depth body)) host.rounds
    | .function name routine => do
      let e ← current
      let f ← onStore (Eval.newFunction ⟨some name.text, routine, e, false⟩)
      onStore (Eval.define e.own name.text f)
      return .normal
    | .return _ value => do
      match value with
      | some value => return .returned (← evaluate host depth value)
      | none => return .returned .nil
    | .class name methods => do
      let e ← current
      let identity ← onStore Eval.newIdentity
      onStore (Eval.define e.own name.text (.class identity ⟨name.text, methodTable e methods⟩))
      return .normal

/-- Calls a value with arguments. -/
def call (host : Host) : Nat → Value → List Value → Run Value
  | 0, _, _ => throw (.overflow none)
  | depth + 1, callee, arguments =>
    match callee with
    | .native index _ =>
      match host.natives[index]? with
      | some native => callNative index native arguments
      | none => throw (.fault none .notCallable)
    | .function _ closure => do
      let e ← extend closure.environment (parameterTable closure.routine.parameters arguments)
      let outcome ← within e (inOrder (execute host depth) closure.routine.body)
      if closure.isInitializer then
        onStore (Eval.read closure.environment ⟨thisName, 0⟩ (.scope 0))
      else
        match outcome with
        | .returned v => return v
        | .normal => return .nil
    | .class _ c => do
      let receiver ← onStore (Eval.newObject c)
      if let some m := c.methods.find? initializerName then
        let _ ← call host depth (← bindMethod m receiver) arguments
      return receiver
    | _ => throw (.fault none .notCallable)

end

/-- Runs a statement of a program. -/
def runStatement (host : Host) (depth : Nat) : Stmt Address → Run (Option Value)
  | .expression value => some <$> evaluate host depth value
  | s => do
    let _ ← execute host depth s
    return none

/-- Runs the statements of a program one after another. -/
def runProgram (host : Host) (depth : Nat) (program : List (Stmt Address)) : Run (Option Value) :=
  program.foldlM (fun _ s => runStatement host depth s) none

end Interpreter

end Treewalk
