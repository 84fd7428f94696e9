import Treewalk.Bindings
import Treewalk.Text.Quoted

/-!
# Environments

A frame is a table of names with values. Frames are shared: every closure that was made in a frame sees
what is written to it later. So frames are held by number in one place, and an `Environment` is the
chain of frames around a place of a running program: its own frame and the frames that enclose it, the
nearest first. The last of them is the global frame.
-/

namespace Treewalk

/-- The number of a frame. -/
abbrev FrameId := Nat

/-- The chain of frames around a place of a running program. -/
structure Environment where
  own : FrameId
  enclosing : List FrameId
deriving DecidableEq, Repr

namespace Environment

/-- The environment of a frame that nothing encloses. -/
def outermost (frame : FrameId) : Environment := ⟨frame, []⟩

/-- The environment of a frame inside another environment. -/
def extend (e : Environment) (frame : FrameId) : Environment := ⟨frame, e.own :: e.enclosing⟩

/-- All frames of an environment, the nearest first. -/
def chain (e : Environment) : List FrameId := e.own :: e.enclosing

/-- The frame that is so many frames further out, if there is one. -/
def ancestor? (e : Environment) (distance : Nat) : Option FrameId := e.chain[distance]?

/-- How many frames enclose the own one. -/
def depth (e : Environment) : Nat := e.enclosing.length

end Environment

/-- Frames by their numbers, each a table of names with things of one type. -/
structure Frames (α : Type) where
  tables : Array (Bindings α) := #[]

namespace Frames

variable {α : Type}

/-- The number of the next frame. -/
def next (f : Frames α) : FrameId := f.tables.size

/-- Adds a frame. It has the number `next`. -/
def add (f : Frames α) (table : Bindings α) : Frames α := ⟨f.tables.push table⟩

/-- The value of a name in a frame. -/
def find? (f : Frames α) (frame : FrameId) (name : String) : Option α :=
  f.tables[frame]? >>= (·.find? name)

/-- Binds a name in a frame. -/
def put (f : Frames α) (frame : FrameId) (name : String) (a : α) : Frames α :=
  ⟨f.tables.modify frame (·.put name a)⟩

/-- The names of a frame, in increasing order. -/
def names (f : Frames α) (frame : FrameId) : List String :=
  match f.tables[frame]? with
  | some table => table.names
  | none => []

/-- The entries of a frame, in increasing order of their names. -/
def entries (f : Frames α) (frame : FrameId) : List (String × α) :=
  match f.tables[frame]? with
  | some table => table.sorted
  | none => []

end Frames

/-- How an environment is shown: the number of frames around its own one, and the names in it. -/
def Environment.text {α : Type} (e : Environment) (f : Frames α) : String :=
  "Environment(depth=" ++ toString e.depth ++ ", names=[" ++
    ", ".intercalate ((f.names e.own).map Text.quoted) ++ "])"

end Treewalk
