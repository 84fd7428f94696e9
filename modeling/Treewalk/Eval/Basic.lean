import Treewalk.Native
import Treewalk.Value.Operation

/-!
# Runs

What a run works on and how it can stop. A `Store` holds all that changes: the frames, the fields of
the instances, how many identities were given out, what was printed, and what native functions were shown
and told. A run that stops leaves its store as it was when it stopped.

`Stop` keeps apart the faults of a program from the two bounds of a run, its depth and the rounds of a
loop, from the read of a local variable before it has a value, and from what a native function may raise
besides.
-/

namespace Treewalk

/-- What a program can do wrong when it runs. -/
inductive Fault where
  | operands (f : OperandFault)
  | undefinedVariable (name : String)
  | undefinedProperty (name : String)
  | notCallable
  | wrongCount (expected given : Nat)
  | noProperties
  | noFields
  /-- A native function gives up with a message. An internal one is no fault of the program. -/
  | native (message : String) (internal : Bool)
deriving DecidableEq, Repr

namespace Fault

/-- The message for a fault of a program. -/
def message : Fault → String
  | operands f => f.message
  | undefinedVariable name => "undefined variable '" ++ name ++ "'"
  | undefinedProperty name => "undefined property '" ++ name ++ "'"
  | notCallable => "can only call functions and classes"
  | wrongCount expected given =>
    "expected " ++ toString expected ++ " arguments but got " ++ toString given
  | noProperties => "only instances have properties"
  | noFields => "only instances have fields"
  | native message _ => message

/-- Whether a fault is none of the program. -/
def isInternal : Fault → Bool
  | native _ internal => internal
  | _ => false

end Fault

/-- Why a run stops before its end. -/
inductive Stop where
  /-- A fault, on a line; one that comes from a native function may have none. -/
  | fault (line : Option Int) (f : Fault)
  /-- A local variable is read before it has a value. -/
  | missing (name : String)
  /-- The run is nested too deeply, by the call on a line or without a call. -/
  | overflow (line : Option Int)
  /-- A loop does not come to an end. -/
  | unfinished
  /-- A native function raises an error that the language does not define. -/
  | raised (kind text : String)
deriving DecidableEq, Repr

/-- All that a run changes. -/
structure Store where
  frames : Frames Value := {}
  /-- The fields of the instances, by their identities. -/
  fields : Frames Value := {}
  /-- The identity of the next function or class. -/
  nextIdentity : Nat := 0
  /-- The lines that were printed, in order. -/
  printed : Array String := #[]
  /-- The values that native functions were shown, by the numbers under which they were. -/
  shown : Array Value := #[]
  /-- What native functions were told, the latest first. -/
  events : List Event := []

/-- The number of the frame of the global names. -/
def globalFrame : FrameId := 0

/-- A store with the global frame and nothing else. -/
def Store.initial : Store := { frames := Frames.add {} {} }

/-- A step of a run. -/
abbrev Eval := EStateM Stop Store

/-- How a run reads and writes the names of a program, each of which comes with its address. -/
structure Access where
  read : Environment → Name → Address → Eval Value
  write : Environment → Name → Address → Value → Eval Unit

/-- What a run does not change: the native functions by their numbers, how names are accessed, and how
many rounds of a loop are run. -/
structure Host where
  natives : Array Native
  access : Access
  rounds : Nat

/-- How a statement ends. -/
inductive Outcome where
  | normal
  | returned (v : Value)

namespace Eval

/-- Stops with a fault on a line. -/
def faultAt {α : Type} (line : Int) (f : Fault) : Eval α := throw (.fault (some line) f)

/-- Goes on with the value of an operator, or stops with the fault of its operands. -/
def operator (line : Int) : Except OperandFault Value → Eval Value
  | .ok v => pure v
  | .error f => faultAt line (.operands f)

/-! ## Names -/

/-- Makes a frame inside an environment. -/
def extend (e : Environment) (table : Bindings Value) : Eval Environment :=
  modifyGet fun store =>
    (e.extend store.frames.next, { store with frames := store.frames.add table })

/-- Binds a name in a frame. -/
def define (frame : FrameId) (name : String) (v : Value) : Eval Unit :=
  modify fun store => { store with frames := store.frames.put frame name v }

/-- The frame that an address leads to from an environment. Resolving gives no address that leads
nowhere. -/
def frameAt (e : Environment) (name : Name) (distance : Nat) : Eval FrameId :=
  match e.ancestor? distance with
  | some frame => pure frame
  | none => throw (.missing name.text)

/-- Reads a name. A global one may be undefined; a local one may have no value yet. -/
def read (e : Environment) (name : Name) : Address → Eval Value
  | .global => do
    match (← get).frames.find? globalFrame name.text with
    | some v => pure v
    | none => faultAt name.line (.undefinedVariable name.text)
  | .scope distance => do
    let frame ← frameAt e name distance
    match (← get).frames.find? frame name.text with
    | some v => pure v
    | none => throw (.missing name.text)

/-- Writes to a name. A global one has to be defined. -/
def write (e : Environment) (name : Name) (address : Address) (v : Value) : Eval Unit :=
  match address with
  | .global => do
    match (← get).frames.find? globalFrame name.text with
    | some _ => define globalFrame name.text v
    | none => faultAt name.line (.undefinedVariable name.text)
  | .scope distance => do
    define (← frameAt e name distance) name.text v

end Eval

/-- Names are accessed at their addresses. -/
def Access.byAddress : Access := ⟨Eval.read, Eval.write⟩

namespace Eval

/-! ## Objects -/

/-- An identity that nothing has yet. -/
def newIdentity : Eval Nat :=
  modifyGet fun store =>
    (store.nextIdentity, { store with nextIdentity := store.nextIdentity + 1 })

/-- A function from a closure. -/
def newFunction (closure : Closure) : Eval Value := return .function (← newIdentity) closure

/-- An instance without fields. -/
def newObject (c : Class) : Eval Value :=
  modifyGet fun store =>
    (.object store.fields.next c, { store with fields := store.fields.add {} })

/-- A method bound to its instance, in a frame that holds the instance and nothing else. -/
def bindMethod (m : Closure) (receiver : Value) : Eval Value := do
  let environment ← extend m.environment (({} : Bindings Value).put thisName receiver)
  newFunction { m with environment := environment }

/-- A property of a value: a field of an instance, or else a method bound to it. -/
def property (v : Value) (name : Name) : Eval Value :=
  match v with
  | .object identity c => do
    match (← get).fields.find? identity name.text with
    | some field => pure field
    | none =>
      match c.methods.find? name.text with
      | some m => bindMethod m v
      | none => faultAt name.line (.undefinedProperty name.text)
  | _ => faultAt name.line .noProperties

/-- Writes a field of an instance. -/
def setField (identity : Nat) (name : String) (v : Value) : Eval Unit :=
  modify fun store => { store with fields := store.fields.put identity name v }

/-- Prints a line. -/
def print (line : String) : Eval Unit :=
  modify fun store => { store with printed := store.printed.push line }

/-! ## Native functions -/

/-- The value that a native function names. Nothing was shown to it under other numbers than it was told,
so these stand for nil. -/
def named (store : Store) : Given → Value
  | .plain l => l.value
  | .native index arity => .native index arity
  | .shown handle => store.shown[handle]?.getD .nil

/-- Whether a value is an instance with a property of a name. -/
def hasProperty (store : Store) (v : Value) (name : String) : Bool :=
  match v with
  | .object identity c =>
    (store.fields.find? identity name).isSome || (c.methods.find? name).isSome
  | _ => false

/-- How values are shown under the numbers from the given one on. -/
def sights : Nat → List Value → List Sight
  | _, [] => []
  | handle, v :: vs => ⟨handle, v.view⟩ :: sights (handle + 1) vs

/-- Tells the native functions that the one with a number is called. -/
def announce (index : Nat) (arguments : List Value) : Eval Unit :=
  modify fun store =>
    { store with
      shown := store.shown ++ arguments.toArray
      events := .called index (sights store.shown.size arguments) :: store.events }

/-- Shows a value to the native functions. -/
def reveal (v : Value) : Eval Answer :=
  modifyGet fun store =>
    (.value ⟨store.shown.size, v.view⟩, { store with shown := store.shown.push v })

/-- Does what a native function asks for. -/
def answer : Request → Eval Answer
  | .same a b => do
    let store ← get
    return .truth ((named store a).same (named store b))
  | .property object name => do
    let store ← get
    let v := named store object
    if hasProperty store v name then reveal (← property v ⟨name, 0⟩) else return .nothing
  | .setField object name value => do
    let store ← get
    match named store object with
    | .object identity _ =>
      setField identity name (named store value)
      return .nothing
    | _ => return .nothing
  | .newClass name => do reveal (.class (← newIdentity) ⟨name, {}⟩)
  | .newObject c => do
    match named (← get) c with
    | .class _ c => reveal (← newObject c)
    | _ => return .nothing
  | .print line => do
    print line
    return .nothing

/-- Puts an answer on record. -/
def record (a : Answer) : Eval Unit :=
  modify fun store => { store with events := .answered a :: store.events }

/-- Answers a request and puts the answer on record. -/
def respond (r : Request) : Eval Answer := do
  let a ← answer r
  record a
  return a

/-- Does the work of a native function. -/
def perform : Work → Eval Value
  | .give v => do return named (← get) v
  | .fail line message internal => throw (.fault line (.native message internal))
  | .raise kind text => throw (.raised kind text)
  | .ask r next => do perform (next (← respond r))

/-- Calls the native function with a number. -/
def callNative (index : Nat) (native : Native) (arguments : List Value) : Eval Value := do
  announce index arguments
  perform (native (← get).events)

/-! ## Control -/

/-- Runs statements up to the first that returns. -/
def inOrder (exec : Stmt Address → Eval Outcome) : List (Stmt Address) → Eval Outcome
  | [] => return .normal
  | s :: ss => do
    match ← exec s with
    | .normal => inOrder exec ss
    | .returned v => return .returned v

/-- A round of a loop: it does not begin if the condition does not hold. -/
def round (condition : Eval Value) (body : Eval Outcome) : Eval (Option Outcome) := do
  if (← condition).isTruthy then some <$> body else return none

/-- Runs rounds of a loop up to one that does not begin or that returns. The first argument bounds the
number of rounds. -/
def loop (round : Eval (Option Outcome)) : Nat → Eval Outcome
  | 0 => throw .unfinished
  | rounds + 1 => do
    match ← round with
    | none => return .normal
    | some .normal => loop round rounds
    | some (.returned v) => return .returned v

/-- The value of a call on a line, given the call itself. A call that is nested too deeply is reported
at the innermost call. -/
def onLine (line : Int) (call : Eval Value) : Eval Value := fun store =>
  match call store with
  | .error (.overflow none) store => .error (.overflow (some line)) store
  | result => result

/-- Stops unless a value can be called with so many arguments. -/
def checkCall (line : Int) (callee : Value) (count : Nat) : Eval Unit :=
  match callee.arity? with
  | none => faultAt line .notCallable
  | some expected => if count = expected then return () else faultAt line (.wrongCount expected count)

end Eval

end Treewalk
