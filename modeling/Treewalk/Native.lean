import Treewalk.Value

/-!
# Native functions

A native function belongs to the program around the interpreter. What it does is not known, and it need
not do the same twice: it may keep a state of its own, share one with other native functions, or read a
clock. All of this is a matter of what native functions have been told so far, so a `Native` takes that
record (`Event`) and gives the work to be done now. What the world adds is in the choice of the function:
a clock is one for every sequence of readings (`Native.clock`).

A native function handles values from outside only. It sees what they look like (`View`) and refers to
them by the numbers under which it was shown them (`Sight`). It can compare values, read and write
properties of instances, make classes and instances and print, step by step (`Work`). It is not given the
interpreter, so it runs no code of the language and makes no functions from it: what it gives is a plain
value, a native function, or a value that it was shown.
-/

namespace Treewalk

/-- What can be seen of a value from outside. -/
inductive View where
  /-- Nil, a boolean, a number and a string are seen as they are. -/
  | plain (l : Literal)
  /-- Of a function or a class it is seen what a program prints for it, and how many arguments it
  takes. -/
  | callable (text : String) (arity : Nat)
  /-- Of an instance it is seen what a program prints for it. -/
  | object (text : String)

/-- How a value looks from outside. -/
def Value.view : Value → View
  | nil => .plain .nil
  | boolean b => .plain (.boolean b)
  | number x => .plain (.number x)
  | string s => .plain (.string s)
  | v =>
    match v.arity? with
    | some arity => .callable v.display arity
    | none => .object v.display

/-- A value as native functions are shown it: under a number, with its looks. -/
structure Sight where
  handle : Nat
  view : View

/-- How a native function names a value: a plain one as it is, a native function as what it is called by,
or one that it was shown by the number of that. -/
inductive Given where
  | plain (l : Literal)
  | native (index arity : Nat)
  | shown (handle : Nat)

/-- What a native function can have done by the interpreter. -/
inductive Request where
  /-- To compare two values. -/
  | same (a b : Given)
  /-- To read a property of an instance: a field, or else a method bound to it. -/
  | property (object : Given) (name : String)
  /-- To write a field of an instance. -/
  | setField (object : Given) (name : String) (value : Given)
  /-- To make a class without methods. -/
  | newClass (name : String)
  /-- To make an instance of a class, without calling the initializer. -/
  | newObject (c : Given)
  /-- To print a line. -/
  | print (line : String)

/-- What comes of a request. -/
inductive Answer where
  /-- There is nothing to tell: a write, or a request that its values do not allow. -/
  | nothing
  | truth (b : Bool)
  | value (s : Sight)

/-- What native functions are told. -/
inductive Event where
  /-- The native function with a number is called with arguments. -/
  | called (index : Nat) (arguments : List Sight)
  /-- A request is answered. -/
  | answered (a : Answer)

/-- The work of one call of a native function. -/
inductive Work where
  /-- The call is over and has this value. -/
  | give (v : Given)
  /-- The native function gives up with an error of the language. An internal one is no fault of the
  program. -/
  | fail (line : Option Int) (message : String) (internal : Bool)
  /-- The native function gives up with an error that the language does not define. -/
  | raise (kind text : String)
  /-- What comes next depends on the answer to a request. -/
  | ask (r : Request) (next : Answer → Work)

/-- A native function: its work, given all that native functions were told so far, the latest first. The
latest is the call itself. -/
abbrev Native := List Event → Work

/-- The native function that tells the time. The given function tells what the clock shows after so many
events; there is one at least between two calls, so the clock may show anything at each call. -/
def Native.clock (time : Nat → Float) : Native := fun events =>
  .give (.plain (.number (time events.length)))

end Treewalk
