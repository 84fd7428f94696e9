import Treewalk.Proofs.Scope.Renaming

/-!
# One scope more

A part of a program may stand in one scope more than another copy of it. If nothing is declared in that
scope, every name is found where it was found before: the scopes further in have the same distance, and
those further out are one further away (`Scoping.Widens.address`). So the two copies, resolved, are the same
but for these addresses (`Visit.alters_shifted`).

The additional scope takes the place of the scope that a `Bearing` is seen from. A statement that stands in
it directly must not declare a name; the grammar says so of the bodies of loops and conditionals.
-/

namespace Treewalk

namespace Bearing

/-- Where a scope is found when there is one more: at the distance of the new one or further out it is one
further away. -/
def shift : Bearing → Nat → Nat
  | within k, j => if j < k then j else j + 1
  | _, j => j

/-- An address when there is one scope more. -/
def shiftAddress (g : Bearing) : Address → Address
  | .global => .global
  | .scope j => .scope (g.shift j)

/-- The scopes around a part when there is one more, which holds no name. -/
def widen : Bearing → List Scope → List Scope
  | within k, σs => σs.take k ++ [] :: σs.drop k
  | _, σs => σs

/-- A part is away from the scope, or in it. -/
def Settled (g : Bearing) : Prop := ∀ path, g ≠ around path

variable {g : Bearing}

/-- Away from the scope is settled. -/
theorem settled_apart : apart.Settled := nofun

/-- In the scope is settled. -/
theorem settled_within (k : Nat) : (within k).Settled := nofun

/-- A settled bearing does not change on the way to the parts. -/
theorem part_of_settled (hg : g.Settled) (i : Nat) : g.part i = g := by
  cases g with
  | around path => exact absurd rfl (hg path)
  | _ => rfl

/-- In a block or a routine, and in a class, all scopes are one further out. -/
theorem shift_enter (hg : g.Settled) (j : Nat) : g.enter.shift (j + 1) = g.shift j + 1 := by
  cases g with
  | around path => exact absurd rfl (hg path)
  | within k =>
    simp only [enter, shift, Nat.add_lt_add_iff_right]
    split <;> rfl
  | apart => rfl

/-- Inside of a block, a routine or a class a settled bearing is settled, and the new scope is not the
innermost. -/
theorem enter_of_settled (hg : g.Settled) : g.enter.Settled ∧ g.enter ≠ within 0 ∧ g.inClass = g.enter := by
  cases g with
  | around path => exact absurd rfl (hg path)
  | within k => exact ⟨nofun, nofun, rfl⟩
  | apart => exact ⟨nofun, nofun, rfl⟩

/-- The own scope stays the own scope, unless the new one is. -/
theorem shift_zero (hg : g ≠ within 0) : g.shift 0 = 0 := by
  cases g with
  | within k =>
    cases k with
    | zero => exact absurd rfl hg
    | succ k => rfl
  | _ => rfl

/-- No scope comes nearer. -/
theorem le_shift (j : Nat) : j ≤ g.shift j := by
  cases g with
  | within k =>
    simp only [shift]
    split <;> omega
  | _ => exact Nat.le_refl j

end Bearing

/-! ## Places -/

/-- What is known at a place when there is one scope more around it. Nothing is said of what has no part in
where a name is found. -/
structure Scoping.Widens (g : Bearing) (c c' : Scoping) : Prop where
  settled : g.Settled
  scopes : c'.scopes = g.widen c.scopes
  inClass : c'.inClass = c.inClass
  /-- The new scope is not further out than the outermost one. -/
  bound : ∀ k, g = .within k → k ≤ c.scopes.length

/-- Inside a new scope every scope is one further away. -/
theorem Scoping.addressFrom_succ {word : String} {σs : List Scope} {d k : Nat} (hk : k ≤ d) :
    addressFrom (d + 1) word σs = (Bearing.within k).shiftAddress (addressFrom d word σs) := by
  induction σs generalizing d with
  | nil => rfl
  | cons σ σs ih =>
    unfold addressFrom
    split
    · simp [Bearing.shiftAddress, Bearing.shift, Nat.not_lt.2 hk]
    · exact ih (Nat.le_succ_of_le hk)

/-- With a new scope around the inner `k` ones the scopes further out are one further away. -/
theorem Scoping.addressFrom_widen {word : String} {σs : List Scope} {d k : Nat} :
    addressFrom d word ((Bearing.within k).widen σs) =
      (Bearing.within (d + k)).shiftAddress (addressFrom d word σs) := by
  induction σs generalizing d k with
  | nil => cases k <;> rfl
  | cons σ σs ih =>
    -- The new scope is the innermost one, or it is behind the first, at which the search ends or goes on.
    cases k with
    | zero =>
      show addressFrom (d + 1) word (σ :: σs) = _
      exact addressFrom_succ (Nat.le_refl d)
    | succ k =>
      show addressFrom d word (σ :: (Bearing.within k).widen σs) = _
      unfold addressFrom
      split
      · simp [Bearing.shiftAddress, Bearing.shift]
      · rw [ih, show d + 1 + k = d + (k + 1) by omega]

namespace Scoping.Widens

variable {g : Bearing} {c c' : Scoping}

/-- Nothing needs to be wider where the new scope is elsewhere. -/
theorem refl (c : Scoping) : c.Widens .apart c := ⟨Bearing.settled_apart, rfl, rfl, nofun⟩

/-- The bearing of a part is as good. -/
theorem part (h : c.Widens g c') (i : Nat) : c.Widens (g.part i) c' := by
  rwa [Bearing.part_of_settled h.settled]

/-- How deep a place is has no part in where a name is found. -/
theorem deeper (h : c.Widens g c') : c.Widens g c'.inside := ⟨h.settled, h.scopes, h.inClass, h.bound⟩

/-- Going inwards opens no scope in either place. -/
theorem inside (h : c.Widens g c') : c.inside.Widens g c'.inside := ⟨h.settled, h.scopes, h.inClass, h.bound⟩

/-- A scope may be opened in both places. -/
theorem push (h : c.Widens g c') (σ : Scope) : (c.push σ).Widens g.enter (c'.push σ) := by
  obtain ⟨hsettled, -, -⟩ := Bearing.enter_of_settled h.settled
  refine ⟨hsettled, ?_, h.inClass, ?_⟩
  · show σ :: c'.scopes = g.enter.widen (σ :: c.scopes)
    rw [h.scopes]
    -- The scope that is opened is further in than the new one.
    cases g with
    | around path => exact absurd rfl (h.settled path)
    | _ => rfl
  · intro k hk
    cases g with
    | around path => exact absurd rfl (h.settled path)
    | within j =>
      cases hk
      exact Nat.succ_le_succ (h.bound j rfl)
    | apart => cases hk

/-- A declaration outside of the new scope is one for both places. -/
theorem put (h : c.Widens g c') (hg : g ≠ .within 0) (word : String) (ready : Bool) :
    (c.put word ready).Widens g (c'.put word ready) := by
  obtain ⟨hsettled, hscopes, hclass, hbound⟩ := h
  obtain ⟨scopes, routine, inClass, depth, maxDepth⟩ := c
  obtain ⟨scopes', routine', inClass', depth', maxDepth'⟩ := c'
  obtain rfl : scopes' = g.widen scopes := hscopes
  cases g with
  | around path => exact absurd rfl (hsettled path)
  | apart => cases scopes <;> exact ⟨hsettled, rfl, hclass, nofun⟩
  | within k =>
    -- There is a scope further in than the new one, and it is the innermost one of both places.
    cases k with
    | zero => exact absurd rfl hg
    | succ k =>
      cases scopes with
      | nil => exact absurd (hbound _ rfl) (Nat.not_succ_le_zero k)
      | cons σ σs => exact ⟨hsettled, rfl, hclass, hbound⟩

/-- Parameters, which are put into a scope that is further in than the new one. -/
theorem foldl_define (h : c.Widens g c') (hg : g ≠ .within 0) {ps : List Name} :
    (ps.foldl define c).Widens g (ps.foldl define c') := by
  induction ps generalizing c c' with
  | nil => exact h
  | cons p ps ih => exact ih (h.put hg p.text true)

/-- The place inside of a routine. -/
theorem inRoutine (h : c.Widens g c') (kind : RoutineKind) (parameters : List Name) :
    (c.inRoutine kind parameters).Widens g.enter (c'.inRoutine kind parameters) := by
  obtain ⟨-, hg, -⟩ := Bearing.enter_of_settled h.settled
  refine foldl_define (push ?_ []) hg
  exact ⟨h.settled, h.scopes, h.inClass, h.bound⟩

/-- The place inside of a class. -/
theorem inClassBody (h : c.Widens g c') : c.inClassBody.Widens g.inClass c'.inClassBody := by
  obtain ⟨-, -, hg⟩ := Bearing.enter_of_settled h.settled
  rw [hg]
  have hpush := h.push [(thisName, true)]
  exact ⟨hpush.settled, hpush.scopes, rfl, hpush.bound⟩

/-- The place after a statement, which does not declare its name in the new scope. -/
theorem after (h : c.Widens g c') (hg : g ≠ .within 0) (s : Stmt Unit) :
    (c.after s).Widens g (c'.after s) := by
  cases s with
  | var n x | function n r | «class» n ms => exact h.put hg n.text true
  | _ => exact h

/-- Every name is found where it was found before. -/
theorem address (h : c.Widens g c') (word : String) :
    c'.address word = g.shiftAddress (c.address word) := by
  unfold Scoping.address
  rw [h.scopes]
  cases g with
  | within k =>
    rw [addressFrom_widen, Nat.zero_add]
  | apart | around path =>
    show addressFrom 0 word c.scopes = _
    cases addressFrom 0 word c.scopes <;> rfl

end Scoping.Widens

/-! ## Programs -/

/-- Names stay as they are, and every address leads where it did although there is one scope more, in which
nothing is declared. -/
def NameRule.shifted : NameRule Address Address where
  use g x a x' a' := x' = x ∧ a' = g.shiftAddress a
  declare g x x' := x' = x ∧ g ≠ .within 0
  keep g _ := g ≠ .within 0

/-- Away from the scope `shifted` asks for nothing. -/
theorem NameRule.idle_shifted : NameRule.shifted.Idle where
  use x a := by cases a <;> exact ⟨rfl, rfl⟩
  declare _ := ⟨rfl, nofun⟩
  keep _ := nofun

/-- A part of a program that may stand in a scope of its own: it is no body and declares nothing. -/
def Node.Alone {ρ : Type} : Node ρ → Prop
  | .statement s => s.declared = []
  | .body _ => False
  | _ => True

/-- No declaration stands alone anywhere in a part of a program. -/
def Node.NestedThroughout (node : Node Unit) : Prop :=
  ∀ p w, Visit.Reaches ⟨p, node⟩ w → w.node.Nested

namespace Visit

/-- What the parts of a node are does not depend on its place. -/
theorem exists_part {p : Place} {node : Node Unit} {w : Visit} (hw : w ∈ parts ⟨p, node⟩) (p' : Place) :
    ∃ q, ⟨q, w.node⟩ ∈ parts ⟨p', node⟩ := by
  have hsame : (parts ⟨p, node⟩).map Visit.node = (parts ⟨p', node⟩).map Visit.node := by
    cases node with
    | expression x => cases x <;> rfl
    | arguments xs => cases xs <;> rfl
    | statement s =>
      cases s with
      | var n x | «return» n x => cases x <;> rfl
      | branch x t t' => cases t' <;> rfl
      | _ => rfl
    | body ss => cases ss <;> rfl
    | routine kind r => rfl
    | methods ms => cases ms <;> rfl
  have hnode : w.node ∈ (parts ⟨p', node⟩).map Visit.node := hsame ▸ List.mem_map_of_mem hw
  obtain ⟨⟨q, -⟩, hq, rfl⟩ := List.mem_map.1 hnode
  exact ⟨q, hq⟩

/-- From another place resolving comes to the same nodes. -/
theorem Reaches.exists_place {p : Place} {node : Node Unit} {w : Visit} (h : Reaches ⟨p, node⟩ w)
    (p' : Place) : ∃ q, Reaches ⟨p', node⟩ ⟨q, w.node⟩ := by
  induction h with
  | refl => exact ⟨p', .refl⟩
  | tail _ hpart ih =>
    obtain ⟨q, hq⟩ := ih
    obtain ⟨q', hq'⟩ := exists_part hpart q
    exact ⟨q', hq.tail hq'⟩

/-- What is nested where it stands is nested at any other place. -/
theorem nestedThroughout {v : Visit} (h : ∀ w, v.Reaches w → w.node.Nested) :
    v.node.NestedThroughout := by
  intro p w hw
  obtain ⟨q, hq⟩ := hw.exists_place v.place
  exact h ⟨q, w.node⟩ hq

end Visit

/-- Nestedness throughout a node is nestedness throughout its parts. -/
theorem Node.NestedThroughout.part {v w : Visit} (h : v.node.NestedThroughout) (hw : w ∈ v.parts) :
    w.node.NestedThroughout :=
  Visit.nestedThroughout fun _ hu => h v.place _ (.head hw hu)

/-- The place at which a node is visited does not matter. -/
theorem Node.NestedThroughout.below {node part : Node Unit} {q : Place} (h : node.NestedThroughout)
    (hpart : ⟨q, part⟩ ∈ Visit.parts ⟨.outermost 0, node⟩) : part.NestedThroughout :=
  h.part (v := ⟨.outermost 0, node⟩) hpart

/-- A node is one of those that resolving comes to from it. -/
theorem Node.NestedThroughout.nested {node : Node Unit} (h : node.NestedThroughout) : node.Nested :=
  h (.outermost 0) _ .refl

namespace Visit

/-- Resolved in one scope more, a node is the same but for the addresses. -/
def Shifts (v : Visit) : Prop :=
  ∀ g c, v.place.scoping.Widens g c → (g = .within 0 → v.node.Alone) →
    Node.Alters .shifted g v.resolved (v.node.resolve c).value

/-- Expressions shift if their parts do. -/
theorem shifts_expression {p : Place} {x : Expr Unit} (hparts : ∀ w ∈ parts ⟨p, .expression x⟩, w.Shifts) :
    Shifts ⟨p, .expression x⟩ := by
  intro g c hc _
  have hpart : ∀ w ∈ parts ⟨p, .expression x⟩, w.place = p.inside → w.node.Alone → ∀ i,
      Node.Alters .shifted (g.part i) w.resolved (w.node.resolve c.inside).value := by
    rintro ⟨-, node⟩ hw rfl halone i
    exact hparts _ hw (g.part i) c.inside (hc.inside.part i) fun _ => halone
  cases x with
  | literal v => exact .literal
  | grouping y => exact .grouping (hpart _ (.head _) rfl trivial 0)
  | unary op line y => exact .unary (hpart _ (.head _) rfl trivial 0)
  | binary op line y z =>
    exact .binary (hpart _ (.head _) rfl trivial 0) (hpart _ (.tail _ (.head _)) rfl trivial 1)
  | logical op y z =>
    exact .logical (hpart _ (.head _) rfl trivial 0) (hpart _ (.tail _ (.head _)) rfl trivial 1)
  | «variable» n mark => exact .variable ⟨rfl, hc.address n.text⟩
  | assign n mark y => exact .assign ⟨rfl, hc.address n.text⟩ (hpart _ (.head _) rfl trivial 0)
  | call y line xs =>
    exact .call (hpart _ (.head _) rfl trivial 0) (hpart _ (.tail _ (.head _)) rfl trivial 1)
  | get y n => exact .get (hpart _ (.head _) rfl trivial 0)
  | set y n z => exact .set (hpart _ (.head _) rfl trivial 0) (hpart _ (.tail _ (.head _)) rfl trivial 1)
  | this line mark =>
    -- Outside of a class there is no receiver, and then there is none in one scope more.
    show Node.Alters .shifted g (.expression (Expr.resolve p.scoping _).value)
      (.expression (Expr.resolve c _).value)
    unfold Expr.resolve
    simp only [Resolved.value_bind, hc.inClass]
    split
    · exact .this ⟨rfl, hc.address thisName⟩
    · exact .this ⟨rfl, rfl⟩
  | lambda r => exact .lambda (hpart _ (.head _) rfl trivial 0)

/-- Statements shift if their parts do. Only the direct parts of a loop or a conditional may come to stand
alone. -/
theorem shifts_statement {p : Place} {s : Stmt Unit} (hnested : (Node.statement s).Nested)
    (hparts : ∀ w ∈ parts ⟨p, .statement s⟩, w.Shifts) : Shifts ⟨p, .statement s⟩ := by
  intro g c hc halone
  obtain ⟨-, henter, hclass⟩ := Bearing.enter_of_settled hc.settled
  have hpart : ∀ w ∈ parts ⟨p, .statement s⟩, w.place = p.inside → w.node.Alone → ∀ i,
      Node.Alters .shifted (g.part i) w.resolved (w.node.resolve c.inside).value := by
    rintro ⟨-, node⟩ hw rfl halone i
    exact hparts _ hw (g.part i) c.inside (hc.inside.part i) fun _ => halone
  -- A declaration is not made in the new scope.
  have hdeclares : ∀ n, n ∈ s.declared → g ≠ .within 0 := fun n hn heq => by
    have hnone : s.declared = [] := halone heq
    rw [hnone] at hn
    cases hn
  cases s with
  | expression x => exact .expression (hpart _ (.head _) rfl trivial 0)
  | print x => exact .print (hpart _ (.head _) rfl trivial 0)
  | var n x =>
    have hg := hdeclares n.text (.head _)
    cases x with
    | none => exact .unset ⟨rfl, hg⟩
    | some x =>
      have hplace := (hc.put hg n.text false).inside.part 0
      exact .var ⟨rfl, hg⟩ (hparts _ (.head _) (g.part 0) _ hplace fun _ => trivial)
  | block ss =>
    exact .block (hparts _ (.head _) g.enter _ (hc.inside.push []) fun heq => absurd heq henter)
  | branch x t t' =>
    cases t' with
    | none =>
      exact .ifThen (hpart _ (.head _) rfl trivial 0) (hpart _ (.tail _ (.head _)) rfl hnested.1 1)
    | some t' =>
      exact .ifElse (hpart _ (.head _) rfl trivial 0) (hpart _ (.tail _ (.head _)) rfl hnested.1 1)
        (hpart _ (.tail _ (.tail _ (.head _))) rfl (hnested.2 t' rfl) 2)
  | «while» x t =>
    exact .while (hpart _ (.head _) rfl trivial 0) (hpart _ (.tail _ (.head _)) rfl hnested 1)
  | function n r =>
    have hg := hdeclares n.text (.head _)
    have hplace := (hc.put hg n.text true).inside.part 0
    exact .function hg (hparts _ (.head _) (g.part 0) _ hplace fun _ => trivial)
  | «return» line x =>
    cases x with
    | none => exact .returnNothing
    | some x => exact .return (hpart _ (.head _) rfl trivial 0)
  | «class» n ms =>
    have hg := hdeclares n.text (.head _)
    have hplace := (hc.put hg n.text true).inside.inClassBody
    exact .class hg (hparts _ (.head _) g.inClass _ hplace fun _ => trivial)

/-- A program that is nested as the grammar demands is the same in one scope more but for the addresses, if
nothing is declared in that scope. -/
theorem alters_shifted {v : Visit} (h : v.node.NestedThroughout) : v.Shifts := by
  induction v using Visit.induction with
  | step v ih =>
  have hparts : ∀ w ∈ v.parts, w.Shifts := fun w hw => ih w hw (h.part hw)
  obtain ⟨p, node⟩ := v
  cases node with
  | expression x => exact shifts_expression hparts
  | statement s => exact shifts_statement (h p _ .refl) hparts
  | arguments xs =>
    intro g c hc _
    cases xs with
    | nil => exact .noArguments
    | cons x xs =>
      exact .arguments (hparts _ (.head _) (g.part 0) c (hc.part 0) fun _ => trivial)
        (hparts _ (.tail _ (.head _)) (g.part 1) c (hc.part 1) fun _ => trivial)
  | body ss =>
    intro g c hc halone
    have hg : g ≠ .within 0 := halone
    cases ss with
    | nil => exact .noStatements
    | cons s ss =>
      -- The statements are not in the additional scope themselves, so none of them declares a name there.
      have hpart : ∀ i, g.part i ≠ .within 0 := fun i => by rwa [Bearing.part_of_settled hc.settled]
      exact .statements (hparts _ (.head _) (g.part 0) c (hc.part 0) fun heq => absurd heq (hpart 0))
        (hparts _ (.tail _ (.head _)) (g.part 1) (c.after s) ((hc.after hg s).part 1)
          fun heq => absurd heq (hpart 1))
  | routine kind r =>
    intro g c hc _
    obtain ⟨-, henter, -⟩ := Bearing.enter_of_settled hc.settled
    cases r with
    | mk ps ss =>
      exact .routine (List.forall₂_same.2 fun p _ => ⟨rfl, henter⟩)
        (hparts _ (.head _) g.enter _ (hc.inRoutine kind ps) fun heq => absurd heq henter)
  | methods ms =>
    intro g c hc _
    rcases ms with - | ⟨⟨n, r⟩, ms⟩
    · exact .noMethods
    · exact .methods (hparts _ (.head _) (g.part 0) c (hc.part 0) fun _ => trivial)
        (hparts _ (.tail _ (.head _)) (g.part 1) c (hc.part 1) fun _ => trivial)

end Visit

end Treewalk
