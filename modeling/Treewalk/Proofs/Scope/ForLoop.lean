import Treewalk.Proofs.Grammar.Completeness
import Treewalk.Proofs.Scope.Path
import Treewalk.Proofs.Scope.Shift

/-!
# Loops with clauses

A `for` loop has no node of its own: its tree is built of blocks and a `while` loop. Here it is taken for
what it is written as, an initial statement, a condition, an expression to go on with and a body, of which
all but the body may be missing (`ForLoop`, `Grammar.Written`).

Its names are marked as one would read them: there is one scope for the whole loop if it has an initial
statement and none otherwise, and in that scope stand the condition, the body and the expression to go on
with (`ForLoop.resolve`). In the tree there is one more scope around the body and that expression, which holds
no name, and so the marks in the tree are the same but for that scope (`ForLoop.alters_tree`).
-/

namespace Treewalk

/-- The parts of a `for` loop. -/
structure ForLoop (ρ : Type) where
  initial : Option (Stmt ρ)
  condition : Option (Expr ρ)
  next : Option (Expr ρ)
  body : Stmt ρ

namespace ForLoop

/-- The tree that a loop is given. -/
def tree {ρ : Type} (l : ForLoop ρ) : Stmt ρ := .forLoop l.initial l.condition l.next l.body

/-- The tree of a `for` declares nothing where it stands. -/
theorem declared_tree {ρ : Type} (l : ForLoop ρ) : l.tree.declared = [] := by
  obtain ⟨initial, condition, next, body⟩ := l
  cases initial <;> rfl

end ForLoop

/-! ## Loops that are written -/

namespace Grammar

variable {nearest : Bool} {d : Nat} {k : Bool} {ts : List Token}

/-- The tokens of a loop: the keyword, the clauses in parentheses, and a statement. -/
inductive Written (nearest : Bool) (d : Nat) (k : Bool) : List Token → ForLoop Unit → Prop
  | mk {ts us vs ws : List Token} {l : ForLoop Unit} {l₁ l₂ l₃ l₄ : Int}
    (hi : Derives nearest (d + 1) .loopStart ts l.initial)
    (hc : Derives nearest (d + 1) .clause us l.condition)
    (hn : Derives nearest (d + 1) .clause vs l.next) (h : Derives nearest d (.statement k) ws l.body) :
    Written nearest d k (word .for_ l₁ :: sym .leftParen l₂ :: ts ++ us ++ sym .semicolon l₃ :: vs ++
      sym .rightParen l₄ :: ws) l

/-- A written loop is a statement with the tree of the loop. -/
theorem Written.derives {l : ForLoop Unit} (h : Written nearest d k ts l) :
    Derives nearest (d + 1) (.statement k) ts l.tree := by
  cases h with
  | mk hi hc hn h => exact .for hi hc hn h

/-- Statements that are no declarations declare nothing. -/
theorem Derives.declared_statement {s : Stmt Unit} (h : Derives nearest d (.statement k) ts s) :
    s.declared = [] := by
  cases h with
  | @«for» _ _ _ _ _ i c n s => exact ForLoop.declared_tree ⟨i, c, n, s⟩
  | _ => rfl

/-- The grammar has no declaration as the body of a loop. -/
theorem Written.declared_body {l : ForLoop Unit} (h : Written nearest d k ts l) : l.body.declared = [] := by
  cases h with
  | mk _ _ _ h => exact h.declared_statement

end Grammar

/-! ## Names -/

namespace ForLoop

/-- The place of the condition, the body and the expression to go on with. -/
def scoping (c : Scoping) (l : ForLoop Unit) : Scoping :=
  match l.initial with
  | some s => (c.push []).after s
  | none => c

/-- Marks the names of a loop. -/
def resolve (c : Scoping) (l : ForLoop Unit) : ForLoop Address where
  initial := l.initial.map fun s => (s.resolve (c.push [])).value
  condition := l.condition.map fun x => (x.resolve (l.scoping c)).value
  next := l.next.map fun x => (x.resolve (l.scoping c)).value
  body := (l.body.resolve (l.scoping c)).value

/-- Where the body of a loop stands in the tree, as seen from the scope that is opened with an expression to
go on with. -/
def bearing {ρ : Type} (l : ForLoop ρ) : Bearing :=
  match l.next with
  | some _ => .within 0
  | none => .apart

/-- The parts of the second loop are those of the first one in the tree. -/
structure Alters (l l' : ForLoop Address) : Prop where
  initial : Option.Rel (fun s s' => Node.Alters .shifted .apart (.statement s) (.statement s'))
    l.initial l'.initial
  condition : Option.Rel (fun x x' => Node.Alters .shifted .apart (.expression x) (.expression x'))
    l.condition l'.condition
  next : Option.Rel (fun x x' => Node.Alters .shifted (.within 0) (.expression x) (.expression x'))
    l.next l'.next
  body : Node.Alters .shifted l.bearing (.statement l.body) (.statement l'.body)

/-- The place of the condition in the tree. -/
def treeScoping (c : Scoping) (l : ForLoop Unit) : Scoping :=
  match l.initial with
  | some s => ((c.inside.push []).after s).inside
  | none => c.inside

/-- The place of the body in the tree. -/
def bodyScoping (c : Scoping) (l : ForLoop Unit) : Scoping :=
  match l.next with
  | some _ => (l.treeScoping c).inside.push []
  | none => l.treeScoping c

/-- The parts of a loop as they are marked in its tree. -/
def resolveInTree (c : Scoping) (l : ForLoop Unit) : ForLoop Address where
  initial := l.initial.map fun s => (s.resolve (c.inside.push [])).value
  condition := l.condition.map fun x => (x.resolve (l.treeScoping c)).value
  next := l.next.map fun x => (x.resolve (l.bodyScoping c).inside).value
  body := (l.body.resolve (l.bodyScoping c)).value

variable {l : ForLoop Unit}

/-- A `for` is resolved as its parts are, in the scopes of its tree. -/
theorem resolve_tree (c : Scoping) (hbody : l.body.declared = []) :
    (l.tree.resolve c).value = (l.resolveInTree c).tree := by
  obtain ⟨initial, condition, next, body⟩ := l
  have hafter : ∀ c : Scoping, c.after body = c := fun c => Node.after_of_declared c hbody
  cases initial <;> cases condition <;> cases next <;>
    simp [tree, Stmt.forLoop, Stmt.resolve, Stmt.resolveList, Expr.resolve, resolveInTree, treeScoping,
      bodyScoping, hafter]

/-- The condition sees the same scopes in the tree. -/
theorem widens_treeScoping (c : Scoping) (l : ForLoop Unit) :
    (l.scoping c).Widens .apart (l.treeScoping c) := by
  have hdeeper : c.Widens .apart c.inside := (Scoping.Widens.refl c).deeper
  obtain ⟨initial, condition, next, body⟩ := l
  cases initial with
  | none => exact hdeeper
  | some s => exact ((hdeeper.push []).after nofun s).deeper

/-- The body sees one more scope in the tree if there is an expression to go on with. -/
theorem widens_bodyScoping (c : Scoping) (l : ForLoop Unit) :
    (l.scoping c).Widens l.bearing (l.bodyScoping c) := by
  have hcondition := widens_treeScoping c l
  obtain ⟨initial, condition, next, body⟩ := l
  cases next with
  | none => exact hcondition
  | some n =>
    refine ⟨Bearing.settled_within 0, ?_, hcondition.inClass, fun k hk => ?_⟩
    · exact congrArg ([] :: ·) hcondition.scopes
    · cases hk
      exact Nat.zero_le _

/-- What holds of a part that is there holds of parts that may be missing. -/
theorem option_rel_map {α β γ : Type} {R : β → γ → Prop} {o : Option α} {f : α → β} {f' : α → γ}
    (h : ∀ a, o = some a → R (f a) (f' a)) : Option.Rel R (o.map f) (o.map f') := by
  cases o with
  | none => exact .none
  | some a => exact .some (h a rfl)

/-- No declaration stands alone in the parts of a loop. -/
structure NestedParts (l : ForLoop Unit) : Prop where
  initial : ∀ s, l.initial = some s → (Node.statement s).NestedThroughout
  condition : ∀ x, l.condition = some x → (Node.expression x).NestedThroughout
  next : ∀ x, l.next = some x → (Node.expression x).NestedThroughout
  body : (Node.statement l.body).NestedThroughout

/-- The parts of a `for` are nested if its tree is nested throughout. -/
theorem nestedParts (h : (Node.statement l.tree).NestedThroughout) : l.NestedParts := by
  have hbody : ∀ {s : Stmt Unit} {ss : List (Stmt Unit)}, (Node.body (s :: ss)).NestedThroughout →
      (Node.statement s).NestedThroughout ∧ (Node.body ss).NestedThroughout := fun h =>
    ⟨h.below (.head _), h.below (.tail _ (.head _))⟩
  have hblock : ∀ {ss : List (Stmt Unit)}, (Node.statement (.block ss)).NestedThroughout →
      (Node.body ss).NestedThroughout := fun h => h.below (.head _)
  obtain ⟨initial, condition, next, body⟩ := l
  -- With an initializer the tree is a block of it and the loop, else the loop alone.
  obtain ⟨hinitial, hwhile⟩ : (∀ s, initial = some s → (Node.statement s).NestedThroughout) ∧
      (Node.statement (Stmt.forLoop none condition next body)).NestedThroughout := by
    cases initial with
    | none => exact ⟨nofun, h⟩
    | some s =>
      obtain ⟨hs, hrest⟩ := hbody (hblock h)
      refine ⟨fun t ht => ?_, (hbody hrest).1⟩
      cases ht
      exact hs
  have hcondition := hwhile.below (.head _)
  have hinner := hwhile.below (.tail _ (.head _))
  -- The step of the loop is in a block behind the body, if there is one.
  refine ⟨hinitial, fun x hx => ?_, fun x hx => ?_, ?_⟩
  · cases hx
    exact hcondition
  · cases hx
    exact (hbody (hbody (hblock hinner)).2).1.below (.head _)
  · cases next with
    | none => exact hinner
    | some n => exact (hbody (hblock hinner)).1

/-- Marked as one would read it, a loop has the same names as its tree, but for the scope around its
body. -/
theorem alters_tree (c : Scoping) (hbody : l.body.declared = [])
    (hnested : (Node.statement l.tree).NestedThroughout) : (l.resolve c).Alters (l.resolveInTree c) := by
  have hparts := nestedParts hnested
  have hshift : ∀ {c c' : Scoping} {g : Bearing} {node : Node Unit}, node.NestedThroughout →
      c.Widens g c' → (g = .within 0 → node.Alone) →
      Node.Alters .shifted g (node.resolve c).value (node.resolve c').value := by
    intro c c' g node hnode hwidens halone
    exact Visit.alters_shifted (v := ⟨⟨c, []⟩, node⟩) hnode g c' hwidens halone
  have hstart : (c.push []).Widens .apart (c.inside.push []) := (Scoping.Widens.refl c).deeper.push []
  -- The initializer has the scopes of its tree; the condition, step and body may have one more around them.
  refine ⟨option_rel_map fun s hs => ?_, option_rel_map fun x hx => ?_, option_rel_map fun x hx => ?_, ?_⟩
  · exact hshift (hparts.initial s hs) hstart nofun
  · exact hshift (hparts.condition x hx) (widens_treeScoping c l) nofun
  · have hwidens := (widens_bodyScoping c l).deeper
    have hbearing : l.bearing = .within 0 := by
      unfold bearing
      rw [hx]
    rw [hbearing] at hwidens
    exact hshift (hparts.next x hx) hwidens fun _ => trivial
  -- The body is in a block only if there is a step.
  · have hbearing : (l.resolve c).bearing = l.bearing := by
      unfold bearing resolve
      cases l.next <;> rfl
    rw [hbearing]
    exact hshift hparts.body (widens_bodyScoping c l) fun _ => hbody

end ForLoop

end Treewalk
