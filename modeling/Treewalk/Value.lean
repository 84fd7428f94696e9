import Treewalk.Environment
import Treewalk.Scope

/-!
# Values

The values of a running program. Functions, classes and instances have an identity: two of them are
the same only if they were made at the same moment. What can change is not in a value: an instance's
fields are held by its identity, and a closure's names in the frames of its environment.
-/

namespace Treewalk

/-- A routine and the environment it was made in. An initializer gives back its instance, whatever it
returns. -/
structure Closure where
  name : Option String
  routine : Routine Address
  environment : Environment
  isInitializer : Bool

/-- A class: its name and its methods, each closed over the environment of the class. -/
structure Class where
  name : String
  methods : Bindings Closure

/-- A value. A native function is given by its number and how many arguments it takes. -/
inductive Value where
  | nil
  | boolean (b : Bool)
  | number (x : Float)
  | string (s : String)
  | native (index arity : Nat)
  | function (identity : Nat) (closure : Closure)
  | class (identity : Nat) (c : Class)
  | object (identity : Nat) (c : Class)

/-- The value of a literal. -/
def Literal.value : Literal → Value
  | nil => .nil
  | boolean b => .boolean b
  | number x => .number x
  | string s => .string s

namespace Value

/-- Nil and false count as false, and every other value as true. -/
def isTruthy : Value → Bool
  | nil | boolean false => false
  | _ => true

/-- Whether two values are equal. Values of different kinds never are. -/
def same : Value → Value → Bool
  | nil, nil => true
  | boolean a, boolean b => a == b
  | number x, number y => x == y
  | string s, string t => s == t
  | native i _, native j _ => i == j
  | function i _, function j _ => i == j
  | .class i _, .class j _ => i == j
  | object i _, object j _ => i == j
  | _, _ => false

/-- What a program prints for a value. -/
def display : Value → String
  | nil => "nil"
  | boolean true => "true"
  | boolean false => "false"
  | number x => Number.display x
  | string s => s
  | native _ _ => "<native fn>"
  | function _ closure => "<fn " ++ closure.name.getD "anonymous" ++ ">"
  | .class _ c => "<class " ++ c.name ++ ">"
  | object _ c => "<instance of " ++ c.name ++ ">"

/-- How many arguments a value is called with, if it can be called. A class takes those of its
initializer. -/
def arity? : Value → Option Nat
  | native _ arity => some arity
  | function _ closure => some closure.routine.parameters.length
  | .class _ c =>
    match c.methods.find? initializerName with
    | some m => some m.routine.parameters.length
    | none => some 0
  | _ => none

/-- Whether a value is a number. -/
def isNumber : Value → Bool
  | number _ => true
  | _ => false

/-- The number that a value is; zero for a value of another kind. -/
def toNumber : Value → Float
  | number x => x
  | _ => 0

end Value

end Treewalk
