/-!
# Bindings

A table of named things in which each name stands at most once. The order of the names is not part of
what a table says; where it is shown, the names are sorted.

Two lemmas say all about a write: the name written has the new value, and every other name is as it
was.
-/

namespace Treewalk

/-- A table of named things. -/
structure Bindings (α : Type) where
  entries : List (String × α) := []

namespace Bindings

variable {α : Type}

/-- What a name is bound to. -/
def find? (b : Bindings α) (name : String) : Option α := b.entries.lookup name

/-- The entries with a name bound to something else, or added at the end. -/
def putIn (name : String) (a : α) : List (String × α) → List (String × α)
  | [] => [(name, a)]
  | (n, old) :: entries =>
    if n = name then (n, a) :: entries else (n, old) :: putIn name a entries

/-- Binds a name, whether it was bound before or not. -/
def put (b : Bindings α) (name : String) (a : α) : Bindings α := ⟨putIn name a b.entries⟩

/-- A name has the value that was written last. -/
@[simp] theorem find?_put_self (b : Bindings α) (name : String) (a : α) :
    (b.put name a).find? name = some a := by
  obtain ⟨entries⟩ := b
  simp only [put, find?]
  induction entries with
  | nil => simp [putIn]
  | cons e entries ih =>
    obtain ⟨n, old⟩ := e
    by_cases h : n = name
    · simp [putIn, h]
    · have h' : (name == n) = false := by simpa using fun e => h e.symm
      simp [putIn, h, List.lookup_cons, h', ih]

/-- Every other name is as it was. -/
theorem find?_put_of_ne (b : Bindings α) {name other : String} (a : α) (h : other ≠ name) :
    (b.put name a).find? other = b.find? other := by
  obtain ⟨entries⟩ := b
  have hn : (other == name) = false := by simpa using h
  simp only [put, find?]
  induction entries with
  | nil => simp [putIn, List.lookup_cons, hn]
  | cons e entries ih =>
    obtain ⟨n, old⟩ := e
    -- The name that is put replaces the one that was there, so this entry is not the other one's.
    by_cases hname : n = name
    · subst hname
      simp [putIn, List.lookup_cons, hn]
    · simp only [putIn, hname, if_false, List.lookup_cons]
      split <;> simp_all

/-- The names, in increasing order of their code points. -/
def names (b : Bindings α) : List String :=
  (b.entries.map Prod.fst).mergeSort fun x y => decide (x ≤ y)

/-- The entries, in increasing order of the code points of their names. -/
def sorted (b : Bindings α) : List (String × α) :=
  b.entries.mergeSort fun x y => decide (x.1 ≤ y.1)

end Bindings

end Treewalk
