import Treewalk.Proofs.Eval.Renumbering
import Treewalk.Proofs.Scope.ForLoop

/-!
# What a loop does

A `for` loop is run as one would read it (`ForLoop.run`): the initial statement is executed once, in a frame
for the whole loop, and after that comes one turn after another as long as the condition holds. A turn is
the body and, if the body does not return, the expression to go on with. All of them are in the one frame.

The tree of the loop does the same with one idle frame for each turn (`ForLoop.matches_run`). The parts of
the loop have as many levels of a run as they have in the tree.
-/

namespace Treewalk

open Eval

namespace ForLoop

/-- The condition. One that is missing holds. -/
def holds (host : Host) (d : Nat) (e : Environment) (l : ForLoop Address) : Eval Value :=
  match l.condition with
  | some x => evaluate host d e x
  | none => return .boolean true

/-- The body and, if it does not return, the expression to go on with. -/
def turn (host : Host) (d : Nat) (e : Environment) (l : ForLoop Address) : Eval Outcome :=
  match l.next with
  | some x => do
    match ← execute host (d - 1) e l.body with
    | .normal =>
      let _ ← evaluate host (d - 2) e x
      return .normal
    | .returned v => return .returned v
  | none => execute host d e l.body

/-- Turns as long as the condition holds. -/
def turns (host : Host) (d : Nat) (e : Environment) (l : ForLoop Address) : Eval Outcome :=
  loop (round (l.holds host d e) (l.turn host d e)) host.rounds

/-- Runs a loop. Its initial statement has a frame, in which the turns are run as well. -/
def run (host : Host) : Nat → Environment → ForLoop Address → Eval Outcome
  | 0, _, _ => throw (.overflow none)
  | d + 1, e, l =>
    match l.initial with
    | some s => do
      let e ← extend e {}
      match ← execute host d e s with
      | .normal => l.turns host (d - 1) e
      | .returned v => return .returned v
    | none => l.turns host d e

/-! ## The tree does the same -/

variable {host : Host} {w : List FrameId} {e e' : Environment} {l l' : ForLoop Address}

/-- A list of one statement is that statement. -/
theorem inOrder_singleton (exec : Stmt Address → Eval Outcome) (s : Stmt Address) :
    inOrder exec [s] = exec s := by
  unfold inOrder inOrder
  conv_rhs => rw [← bind_pure (exec s)]
  refine bind_congr fun o => ?_
  cases o <;> rfl

/-- The condition of a `for`, or a literal in its place, is evaluated alike in both forms. -/
theorem matches_holds (h : l.Alters l') (hat : renumbering.Bears host w .apart e e') (d : Nat) :
    renumbering.Matches w renumbering.Values (l.holds host (d + 1) e)
      (evaluate host (d + 1) e' (l'.condition.getD (.literal (.boolean true)))) := by
  have hcondition := h.condition
  unfold holds
  generalize l.condition = x at hcondition
  generalize l'.condition = x' at hcondition
  cases hcondition with
  | none => exact .pure fun _ _ => .boolean true
  | some hx => exact (lawful_renumbering.simulates host (d + 1)).evaluate hat hx

/-- The statement that is repeated in the tree of a loop. -/
def repeated (l : ForLoop Address) : Stmt Address :=
  match l.next with
  | some x => .block [l.body, .expression x]
  | none => l.body

/-- A turn of a `for` is its body and its step, which the tree has in one block. -/
theorem matches_turn (h : l.Alters l') (hat : renumbering.Bears host w .apart e e') (d : Nat) :
    renumbering.Matches w renumbering.Outcomes (l.turn host d e) (execute host d e' l'.repeated) := by
  have hnext := h.next
  have hbody := h.body
  unfold turn repeated
  unfold bearing at hbody
  generalize l.next = x at hnext hbody
  generalize l'.next = x' at hnext
  cases hnext with
  | none => exact (lawful_renumbering.simulates host d).execute hat hbody
  | @some x x' hx =>
    cases d with
    | zero => exact .throw _
    | succ d =>
      -- In the tree, the body stands in a block together with the expression to go on with. Nothing is
      -- declared on the frame of this block.
      show renumbering.Matches w _ _ (extend e' {} >>= fun e₁' => inOrder (execute host d e₁') _)
      refine .idle hat.fits fun e₁' hfits => ?_
      have hinner : renumbering.Bears host w (.within 0) e e₁' := ⟨hat.access, hfits⟩
      refine ((lawful_renumbering.simulates host d).execute hinner hbody).bind fun w₁ hw₁ o o' ho => ?_
      cases ho with
      | returned hv => exact .returned hv
      | normal =>
        -- The expression comes next, at the depth of the block as well.
        simp only [inOrder_singleton]
        cases d with
        | zero => exact .throw _
        | succ d =>
          have hlater := lawful_renumbering.bears_mono hinner hw₁
          refine ((lawful_renumbering.simulates host d).evaluate hlater hx).bind fun _ _ _ _ _ => ?_
          exact .pure fun _ _ => .normal

/-- All turns of a `for` are those of the loop in its tree. -/
theorem matches_turns (h : l.Alters l') (hat : renumbering.Bears host w .apart e e') (d : Nat) :
    renumbering.Matches w renumbering.Outcomes (l.turns host d e)
      (execute host (d + 1) e' (.while (l'.condition.getD (.literal (.boolean true))) l'.repeated)) := by
  refine Correspondence.Matches.loop ?_ host.rounds
  cases d with
  | zero =>
    -- A missing condition takes no level, but then the body has none.
    have hdeep : round (l.holds host 0 e) (l.turn host 0 e) = throw (.overflow none) := by
      unfold holds turn
      cases l.condition <;> cases l.next <;> rfl
    rw [hdeep]
    exact .throw _
  | succ d => exact .round (matches_holds h hat d) (matches_turn h hat (d + 1))

/-- The tree of a loop. -/
theorem tree_eq (l : ForLoop Address) : l.tree =
    match l.initial with
    | some s => .block [s, .while (l.condition.getD (.literal (.boolean true))) l.repeated]
    | none => .while (l.condition.getD (.literal (.boolean true))) l.repeated := by
  obtain ⟨initial, condition, next, body⟩ := l
  cases initial <;> cases next <;> rfl

/-- A loop and its tree do the same, but for idle frames. -/
theorem matches_run (h : l.Alters l') (hat : renumbering.Bears host w .apart e e') (d : Nat) :
    renumbering.Matches w renumbering.Outcomes (l.run host d e) (execute host d e' l'.tree) := by
  cases d with
  | zero => exact .throw _
  | succ d =>
    have hinitial := h.initial
    rw [tree_eq, run]
    generalize l.initial = s at hinitial
    generalize l'.initial = s' at hinitial
    cases hinitial with
    -- Without an initializer there is no scope around the loop.
    | none => exact matches_turns h hat d
    | some hs =>
      -- With one, the tree has a block, and the loop is one scope further in.
      show renumbering.Matches w _ _ (extend e' {} >>= fun e₁' => inOrder (execute host d e₁') _)
      refine (lawful_renumbering.enter hat.fits .empty).bind fun w₁ hw₁ e₁ e₁' hfits => ?_
      have hinner : renumbering.Bears host w₁ .apart e₁ e₁' := ⟨hat.access, hfits⟩
      cases d with
      | zero => exact .throw _
      | succ d =>
        -- Both forms run the initializer first. After it the tree has the loop alone in its block.
        refine ((lawful_renumbering.simulates host _).execute hinner hs).bind fun w₂ hw₂ o o' ho => ?_
        cases ho with
        | returned hv => exact .returned hv
        | normal =>
          simp only [inOrder_singleton]
          exact matches_turns h (lawful_renumbering.bears_mono hinner hw₂) d

end ForLoop

end Treewalk
