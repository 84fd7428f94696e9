import Treewalk.Proofs.Scope.Alteration
import Mathlib.Data.List.Nodup
import Mathlib.Data.List.Pairwise

/-!
# Renaming a local variable

A block or a routine introduces a name if a variable or a parameter of that name is declared in its
scope. `Visit.follow` leads along a path to the visit of such a block or routine. If the program is
accepted, and does not hold the name `m`, then there is a program to which it is renamed
(`Visit.exists_renames`): it is accepted too, the two are the same but for the names of the variable, and
with the same addresses.
-/

namespace Treewalk

/-! ## Introduced names -/

/-- A variable of the given name is declared among statements. -/
def Declares {ρ : Type} (n : String) (ss : List (Stmt ρ)) : Prop :=
  ∃ name x, Stmt.var name x ∈ ss ∧ name.text = n

/-- A block or a routine opens a scope in which a variable or a parameter is declared. -/
def Node.Introduces {ρ : Type} (n : String) : Node ρ → Prop
  | .statement (.block ss) => Declares n ss
  | .routine _ r => n ∈ r.parameters.map Name.text ∨ Declares n r.body
  | _ => False

/-- The names of the functions and classes that a statement declares. -/
def Stmt.fixed {ρ : Type} : Stmt ρ → List String
  | .function name _ | .class name _ => [name.text]
  | _ => []

/-- The names of the functions and classes that a part of a program adds to the innermost scope. -/
def Node.fixed {ρ : Type} : Node ρ → List String
  | .statement s => s.fixed
  | .body ss => ss.flatMap Stmt.fixed
  | _ => []

/-- Names that must stay are among the declared ones. -/
theorem Stmt.fixed_subset {ρ : Type} (s : Stmt ρ) : s.fixed ⊆ s.declared := by
  cases s with
  | function name r | «class» name ms => exact List.Subset.refl _
  | _ => exact List.nil_subset _

/-- The same for any part of a program. -/
theorem Node.fixed_subset {ρ : Type} (node : Node ρ) : node.fixed ⊆ node.declared := by
  cases node with
  | statement s => exact s.fixed_subset
  | body ss =>
    intro n hn
    obtain ⟨s, hs, hname⟩ := List.mem_flatMap.1 hn
    exact List.mem_flatMap_of_mem hs (s.fixed_subset hname)
  | _ => exact List.nil_subset _

/-- The size of a part of a program, as a tree. -/
noncomputable def Node.size : Node Unit → Nat
  | .expression x => sizeOf x
  | .arguments xs => sizeOf xs
  | .statement s => sizeOf s
  | .body ss => sizeOf ss
  | .routine _ r => sizeOf r
  | .methods ms => sizeOf ms

namespace Visit

variable {v w : Visit} {n m : String} {g : Bearing}

/-- The visit to which a path leads, by the numbers of the parts. -/
def follow (v : Visit) : List Nat → Option Visit
  | [] => some v
  | i :: path => v.parts[i]? >>= fun w => w.follow path

/-- Where a path leads, resolving comes. -/
theorem Reaches.of_follow {path : List Nat} (h : v.follow path = some w) : v.Reaches w := by
  induction path generalizing v with
  | nil =>
    cases h
    exact .refl
  | cons i path ih =>
    obtain ⟨u, hu, hw⟩ := Option.bind_eq_some_iff.1 h
    exact .head (List.mem_of_getElem? hu) (ih hw)

/-- The parts of a visit are smaller. -/
theorem size_of_part (hw : w ∈ v.parts) : w.node.size < v.node.size := by
  obtain ⟨p, node⟩ := v
  -- Case by case: a part is a component of its node, or one of a list.
  cases node with
  | expression x =>
    cases x <;> simp only [parts, List.mem_cons, List.not_mem_nil, or_false] at hw
    all_goals obtain rfl | rfl := hw <;> simp [Node.size] <;> omega
  | arguments xs =>
    cases xs <;> simp only [parts, List.mem_cons, List.not_mem_nil, or_false] at hw
    obtain rfl | rfl := hw <;> simp only [Node.size, List.cons.sizeOf_spec] <;> omega
  | statement s =>
    cases s with
    | var n x | «return» n x =>
      cases x <;> simp only [parts, List.mem_cons, List.not_mem_nil, or_false] at hw
      obtain rfl := hw
      simp [Node.size]
      omega
    | branch x s s' =>
      cases s' <;> simp only [parts, List.mem_cons, List.not_mem_nil, or_false] at hw
      · obtain rfl | rfl := hw <;> simp only [Node.size, Stmt.branch.sizeOf_spec] <;> omega
      · obtain rfl | rfl | rfl := hw <;>
          simp only [Node.size, Stmt.branch.sizeOf_spec, Option.some.sizeOf_spec] <;> omega
    | _ =>
      simp only [parts, List.mem_cons, List.not_mem_nil, or_false] at hw
      obtain rfl | rfl := hw <;> simp [Node.size] <;> omega
  | body ss =>
    cases ss <;> simp only [parts, List.mem_cons, List.not_mem_nil, or_false] at hw
    obtain rfl | rfl := hw <;> simp only [Node.size, List.cons.sizeOf_spec] <;> omega
  | routine kind r =>
    cases List.mem_singleton.1 hw
    cases r
    simp only [Node.size, Routine.body, Routine.mk.sizeOf_spec]
    omega
  | methods ms =>
    rcases ms with - | ⟨⟨name, r⟩, ms⟩ <;>
      simp only [parts, List.mem_cons, List.not_mem_nil, or_false] at hw
    obtain rfl | rfl := hw <;> simp only [Node.size, List.cons.sizeOf_spec, Prod.mk.sizeOf_spec] <;> omega

/-- Whatever resolving comes to is smaller. -/
theorem ComesTo.size_lt (h : v.ComesTo w) : w.node.size < v.node.size := by
  induction h with
  | single hw => exact size_of_part hw
  | tail _ hw ih => exact Nat.lt_trans (size_of_part hw) ih

/-- What holds of a visit if it holds of its parts holds of every visit. -/
theorem induction {P : Visit → Prop} (step : ∀ v, (∀ w ∈ v.parts, P w) → P v) (v : Visit) : P v :=
  step v fun w _ => induction step w
termination_by v.node.size
decreasing_by exact size_of_part ‹_›

/-! ## Declared once -/

/-- Nothing is wrong with what a visit finds by itself, nor with its parts. -/
theorem accepted_iff :
    v.findings = [] ↔ v.ownFindings = [] ∧ ∀ w ∈ v.parts, w.findings = [] := by
  rw [findings_eq, List.append_eq_nil_iff, List.flatMap_eq_nil_iff]

/-- A name that is declared without a finding is not in the innermost scope yet. -/
theorem not_holds_of_declared {p : Place} {s : Stmt Unit} {σ : Scope} {σs : List Scope} {word : String}
    (h : findings ⟨p, .statement s⟩ = []) (hscopes : p.scoping.scopes = σ :: σs)
    (hword : word ∈ s.declared) : σ.holds word = false := by
  refine Bool.eq_false_iff.2 fun hholds => ?_
  have hown := (accepted_iff.1 h).1
  -- A name that is in the scope would have been reported.
  have hredeclared : ∀ name : Name, name.text = word → p.scoping.redeclarations name ≠ [] := by
    rintro name rfl hnil
    unfold Scoping.redeclarations at hnil
    simp only [hscopes, hholds, if_true] at hnil
    cases hnil
  cases s with
  | var name x | function name x | «class» name x =>
    exact hredeclared name (List.mem_singleton.1 hword).symm (List.append_eq_nil_iff.1 hown).2
  | _ => cases hword

/-- Statements with which nothing is wrong declare each of their names once, and none that the scope
holds before. -/
theorem declared_nodup {ss : List (Stmt Unit)} {p : Place} {σ : Scope} {σs : List Scope}
    (h : findings ⟨p, .body ss⟩ = []) (hscopes : p.scoping.scopes = σ :: σs) :
    (ss.flatMap Stmt.declared).Nodup ∧ ∀ word ∈ ss.flatMap Stmt.declared, σ.holds word = false := by
  induction ss generalizing p σ with
  | nil => exact ⟨List.nodup_nil, fun word hword => by cases hword⟩
  | cons s ss ih =>
    have hparts := (accepted_iff.1 h).2
    have hs : findings ⟨p, .statement s⟩ = [] := hparts _ List.mem_cons_self
    have hss : findings ⟨p.after s, .body ss⟩ = [] :=
      hparts _ (List.mem_cons_of_mem _ (List.mem_singleton_self _))
    have hdeclared : ∀ word ∈ s.declared, σ.holds word = false := fun _ hword =>
      not_holds_of_declared hs hscopes hword
    -- What the statement declares is in the scope of the statements after it.
    have hafter : ∃ σ', (p.after s).scoping.scopes = σ' :: σs ∧
        ∀ word, word ∈ s.declared ∨ σ.holds word = true → σ'.holds word = true := by
      have hput : ∀ name : Name, s.declared = [name.text] → (p.after s).scoping = p.scoping.define name →
          ∃ σ', (p.after s).scoping.scopes = σ' :: σs ∧
            ∀ word, word ∈ s.declared ∨ σ.holds word = true → σ'.holds word = true := by
        intro name hname hplace
        refine ⟨σ.put name.text true, ?_, fun word hword => Scope.holds_put.2 ?_⟩
        · rw [hplace]
          unfold Scoping.define Scoping.put
          rw [hscopes]
        · rw [hname] at hword
          exact hword.imp_left List.mem_singleton.1
      cases s with
      | var name x | function name x | «class» name x => exact hput name rfl rfl
      | _ => exact ⟨σ, hscopes, fun word hword => hword.resolve_left List.not_mem_nil⟩
    obtain ⟨σ', hσ', hholds⟩ := hafter
    obtain ⟨hnodup, hlater⟩ := ih hss hσ'
    rw [List.flatMap_cons]
    refine ⟨List.nodup_append'.2 ⟨?_, hnodup, fun word hword hword' => ?_⟩, fun word hword => ?_⟩
    · cases s <;> simp [Stmt.declared]
    · exact Bool.false_ne_true ((hlater word hword').symm.trans (hholds word (.inl hword)))
    · rcases List.mem_append.1 hword with hword | hword
      · exact hdeclared word hword
      · exact Bool.eq_false_iff.2 fun h =>
          Bool.false_ne_true ((hlater word hword).symm.trans (hholds word (.inr h)))

/-- Where a variable is declared, no function and no class of its name is. -/
theorem not_mem_fixed {ss : List (Stmt Unit)} (hnodup : (ss.flatMap Stmt.declared).Nodup)
    (hdeclares : Declares n ss) : n ∉ ss.flatMap Stmt.fixed := by
  obtain ⟨name, x, hvar, rfl⟩ := hdeclares
  intro hfixed
  obtain ⟨s, hs, hname⟩ := List.mem_flatMap.1 hfixed
  have hne : Stmt.var name x ≠ s := by
    rintro rfl
    cases hname
  have : Std.Symm (Function.onFun List.Disjoint (@Stmt.declared Unit)) :=
    ⟨fun _ _ hdisjoint _ h h' => hdisjoint h' h⟩
  exact (List.nodup_flatMap.1 hnodup).2.forall hvar hs hne (List.mem_singleton_self _)
    (s.fixed_subset hname)

end Visit

/-! ## Bearings of visits -/

/-- The bearing of a part of a node. -/
def Bearing.toward (g : Bearing) : Node Unit → Nat → Bearing
  | .statement (.block _), _ | .routine _ _, _ => g.enter
  | .statement (.class _ _), _ => g.inClass
  | _, i => g.part i

namespace Visit

variable {v w : Visit} {n m : String} {g : Bearing}

/-- A bearing is right for a visit: a path in it leads to what introduces the name, and in the scope
itself no function and no class of that name is declared. -/
def Aims (n : String) (v : Visit) : Bearing → Prop
  | .apart => True
  | .around path => ∃ w, v.follow path = some w ∧ w.node.Introduces n
  | .within k => k = 0 → n ∉ v.node.fixed

/-- All is in order to exchange a name at a visit: nothing is wrong with it, the new name does not occur,
and the bearing is right. -/
structure Renamable (n m : String) (g : Bearing) (v : Visit) : Prop where
  sound : ∀ w, v.Reaches w → w.Sound
  fresh : ∀ w, v.Reaches w → m ∉ w.node.names
  lacks : v.place.scoping.Lacks m
  aims : v.Aims n g

/-- The scopes around a part lack a name if those around the node do and the node does not hold it. -/
theorem lacks_of_part (hm : m ≠ thisName) (h : v.place.scoping.Lacks m) (hnames : m ∉ v.node.names)
    (hw : w ∈ v.parts) : w.place.scoping.Lacks m := by
  obtain ⟨p, node⟩ := v
  have hput : ∀ (name : Name) (ready : Bool), name.text ∈ node.declared →
      (p.scoping.put name.text ready).Lacks m := fun name ready hname =>
    h.put (fun heq => hnames (heq ▸ node.declared_subset_names hname)) ready
  -- Whatever scope is opened or name is put on the way, it is none of the new name.
  cases partOf_of_mem hw with
  | within hq => obtain rfl | rfl := hq <;> exact h
  | initializer => exact hput _ false (List.mem_singleton_self _)
  | function => exact hput _ true (List.mem_singleton_self _)
  | methods => exact (hput _ true (List.mem_singleton_self _)).inside.inClassBody hm
  | block => exact Scoping.Lacks.push (c := p.scoping) h rfl
  | @body kind r => exact h.inRoutine kind fun p hp heq => hnames (List.mem_map.2 ⟨p, hp, heq⟩)
  | statement => exact h
  | later => exact h.after fun hs => hnames (List.mem_flatMap_of_mem List.mem_cons_self hs)

/-- Only the path matters for the bearing of a part, if the scope is opened further in. -/
theorem toward_around {i j : Nat} {path : List Nat} (hw : v.parts[i]? = some w) :
    (Bearing.around (j :: path)).toward v.node i = (Bearing.around (j :: path)).part i := by
  obtain ⟨p, node⟩ := v
  have hone : ∀ {u : Visit}, [u][i]? = some w → i = 0 := fun h => by
    have hlt := (List.getElem?_eq_some_iff.1 h).1
    exact Nat.lt_one_iff.1 hlt
  -- A block, a routine and a class have one part only, and there the path begins with its number.
  cases node with
  | statement s =>
    cases s with
    | block ss | «class» name ms =>
      cases hone hw
      rfl
    | _ => rfl
  | routine kind r =>
    cases hone hw
    rfl
  | _ => rfl

/-- The part of a block or a routine that introduces a name is in its scope. -/
theorem Aims.enter {p : Place} {node : Node Unit} {i : Nat} (hsound : Sound ⟨p, node⟩)
    (hnode : node.Introduces n) (hw : (parts ⟨p, node⟩)[i]? = some w) :
    w.Aims n ((Bearing.around []).toward node i) := by
  have haccepted := (accepted_iff.1 hsound.accepted).2
  cases node with
  | statement s =>
    cases s with
    | block ss =>
      cases List.mem_singleton.1 (List.mem_of_getElem? hw)
      have hnodup := (declared_nodup (haccepted _ (List.mem_singleton_self _)) rfl).1
      exact fun _ => not_mem_fixed hnodup hnode
    | _ => cases hnode
  | routine kind r =>
    cases List.mem_singleton.1 (List.mem_of_getElem? hw)
    have hnodup := declared_nodup (haccepted _ (List.mem_singleton_self _))
      (p.scoping.scopes_inRoutine kind r.parameters)
    refine fun _ => hnode.elim (fun hn hfixed => ?_) (not_mem_fixed hnodup.1)
    -- A parameter is in the scope from the beginning.
    have hdeclared : n ∈ r.body.flatMap Stmt.declared := (Node.body r.body).fixed_subset hfixed
    have hholds := Scope.holds_iff.2 ⟨true, mem_parameterScope.2 ⟨hn, rfl⟩⟩
    exact Bool.false_ne_true ((hnodup.2 n hdeclared).symm.trans hholds)
  | _ => cases hnode

/-- In one scope, what a part declares the node declares. -/
theorem Aims.within {p : Place} {node : Node Unit} {i k : Nat} (hsound : Sound ⟨p, node⟩)
    (h : Aims n ⟨p, node⟩ (.within k)) (hw : (parts ⟨p, node⟩)[i]? = some w) :
    w.Aims n ((Bearing.within k).toward node i) := by
  have htoward : ∃ j, (Bearing.within k).toward node i = .within j := by
    unfold Bearing.toward
    split <;> exact ⟨_, rfl⟩
  have hnone : w.node.fixed = [] → w.Aims n ((Bearing.within k).toward node i) := by
    obtain ⟨j, hj⟩ := htoward
    rw [hj]
    intro hnil _
    rw [hnil]
    exact List.not_mem_nil
  -- A part with a scope of its own declares nothing in the scope around it.
  have hfurther : ∀ u : Visit, u.Aims n (.within (k + 1)) := fun u hk => absurd hk (Nat.succ_ne_zero k)
  cases partOf_of_mem (List.mem_of_getElem? hw) with
  | @within _ part _ _ _ hpart =>
    exact hnone (List.eq_nil_of_subset_nil (hpart hsound.worded.nested ▸ part.fixed_subset))
  | initializer | function => exact hnone rfl
  | methods | block | body => exact hfurther _
  | statement => exact fun hk hs => h hk (List.mem_append_left _ hs)
  | later => exact fun hk hss => h hk (List.mem_append_right _ hss)

/-- All is in order at the parts of a visit if it is at the visit. -/
theorem Renamable.part (hm : m ≠ thisName) (h : v.Renamable n m g) {i : Nat}
    (hw : v.parts[i]? = some w) : w.Renamable n m (g.toward v.node i) := by
  have hmem := List.mem_of_getElem? hw
  have hsound := h.sound v .refl
  refine ⟨fun u hu => h.sound u (.head hmem hu), fun u hu => h.fresh u (.head hmem hu),
    lacks_of_part hm h.lacks (h.fresh v .refl) hmem, ?_⟩
  have haims := h.aims
  cases g with
  | apart =>
    have htoward : Bearing.apart.toward v.node i = .apart := by
      unfold Bearing.toward
      split <;> rfl
    rw [htoward]
    trivial
  | around path =>
    obtain ⟨u, hu, hintroduces⟩ := haims
    cases path with
    | nil =>
      cases hu
      exact Aims.enter hsound hintroduces hw
    | cons j path =>
      -- The path goes on into the part that it points to, and all other parts are apart from the scope.
      rw [toward_around hw]
      show w.Aims n (if i = j then .around path else .apart)
      split
      · next heq =>
        subst heq
        have hpath : v.parts[i]? >>= (fun w => w.follow path) = some u := hu
        rw [hw] at hpath
        exact ⟨u, hpath, hintroduces⟩
      · trivial
  | within k => exact Aims.within hsound haims hw

/-! ## The other program -/

/-- What a node is renamed to: nothing is found to be wrong with it at the given place, and it is the same
but for names, with the same addresses. -/
structure Renames (n m : String) (g : Bearing) (v : Visit) (c : Scoping) (u : Node Unit) : Prop where
  accepted : (u.resolve c).findings = []
  respells : v.node.Alters (.anywhere n m) g u
  renames : v.resolved.Alters (.inScope n m) g (u.resolve c).value

/-- What the parts of a visit are renamed to, at the given places. -/
def PartsRename (n m : String) (g : Bearing) (v : Visit) : Prop :=
  ∀ i w, v.parts[i]? = some w → ∀ c, c = (g.toward v.node i).scoping n m w.place.scoping →
    ∃ u, w.Renames n m (g.toward v.node i) c u

/-- A name of a use that is allowed by both rules. -/
theorem use_inScope {c : Scoping} (hc : c.Lacks m) {name : Name} (hname : name.text ≠ m) :
    (NameRule.inScope n m).use g name (c.address name.text)
      (name.respelled n m (g.meets (c.address name.text)))
      ((g.scoping n m c).address (name.respelled n m (g.meets (c.address name.text))).text) :=
  ⟨Bearing.address_scoping hc hname, rfl, fun _ => hname⟩

/-- The parts of a node stand at the place of its parts in the other program too. -/
theorem scoping_inside_part (i : Nat) (c : Scoping) :
    (g.scoping n m c).inside = (g.part i).scoping n m c.inside := by
  rw [Bearing.scoping_part]
  exact Bearing.scoping_inside

namespace PartsRename

variable {p : Place} {node : Node Unit}

/-- The renamed copy of a part that is an expression. -/
theorem expression (h : PartsRename n m g ⟨p, node⟩) (i : Nat) (y : Expr Unit)
    (hy : (parts ⟨p, node⟩)[i]? = some ⟨p.inside, .expression y⟩) (htoward : g.toward node i = g.part i) :
    ∃ y', Renames n m (g.part i) ⟨p.inside, .expression y⟩ (g.scoping n m p.scoping).inside
      (.expression y') := by
  obtain ⟨u, hu⟩ := h i _ hy _ (htoward ▸ scoping_inside_part i _)
  obtain ⟨y', rfl⟩ := hu.respells.exists_expression
  exact ⟨y', htoward ▸ hu⟩

/-- The renamed copy of a part that is a statement. -/
theorem statement (h : PartsRename n m g ⟨p, node⟩) (i : Nat) (t : Stmt Unit)
    (ht : (parts ⟨p, node⟩)[i]? = some ⟨p.inside, .statement t⟩) (htoward : g.toward node i = g.part i) :
    ∃ t', Renames n m (g.part i) ⟨p.inside, .statement t⟩ (g.scoping n m p.scoping).inside
      (.statement t') := by
  obtain ⟨u, hu⟩ := h i _ ht _ (htoward ▸ scoping_inside_part i _)
  obtain ⟨t', rfl⟩ := hu.respells.exists_statement
  exact ⟨t', htoward ▸ hu⟩

end PartsRename

/-- One accepted part. -/
theorem accepted_one {u : Visit} (hu : u.findings = []) : ∀ w ∈ [u], w.findings = [] :=
  List.forall_mem_singleton.2 hu

/-- Two accepted parts. -/
theorem accepted_two {u u' : Visit} (hu : u.findings = []) (hu' : u'.findings = []) :
    ∀ w ∈ [u, u'], w.findings = [] :=
  List.forall_mem_cons.2 ⟨hu, accepted_one hu'⟩

/-- Nothing is found in a node if nothing is found at the node itself and nothing in its parts. -/
theorem accepted_of_parts {c : Scoping} {node : Node Unit} (hown : ownFindings ⟨⟨c, []⟩, node⟩ = [])
    (hparts : ∀ w ∈ parts ⟨⟨c, []⟩, node⟩, w.findings = []) : (node.resolve c).findings = [] :=
  (accepted_iff (v := ⟨⟨c, []⟩, node⟩)).2 ⟨hown, hparts⟩

/-- Nothing is found in an expression or a statement if it is not too deep, nothing else is found at it, and
nothing in its parts. -/
theorem findings_eq_nil {c : Scoping} {node : Node Unit} {more : List Finding}
    (hdepth : c.depthFindings = []) (hown : ownFindings ⟨⟨c, []⟩, node⟩ = c.depthFindings ++ more)
    (hmore : more = []) (hparts : ∀ w ∈ parts ⟨⟨c, []⟩, node⟩, w.findings = []) :
    (node.resolve c).findings = [] := by
  refine accepted_of_parts ?_ hparts
  rw [hown, hdepth, hmore]
  rfl

/-- An expression whose parts can be renamed can be renamed, case by case. -/
theorem exists_renames_expression (hn : n ≠ thisName) (hm : m ≠ thisName) {p : Place} {x : Expr Unit}
    (h : Renamable n m g ⟨p, .expression x⟩) (hparts : PartsRename n m g ⟨p, .expression x⟩) :
    ∃ u, Renames n m g ⟨p, .expression x⟩ (g.scoping n m p.scoping) u := by
  have hsound := h.sound _ .refl
  -- The renamed expression is as deep as the given one, so it is too deep only if that is.
  have hdepth : (g.scoping n m p.scoping).depthFindings = [] := by
    rw [Bearing.depthFindings_scoping]
    exact (List.append_eq_nil_iff.1 hsound.ownFindings).1
  cases x with
  | literal v =>
    exact ⟨.expression (.literal v), findings_eq_nil hdepth rfl rfl (List.forall_mem_nil _), .literal,
      .literal⟩
  | grouping y =>
    obtain ⟨y', hy⟩ := hparts.expression 0 y rfl rfl
    exact ⟨.expression (.grouping y'), findings_eq_nil hdepth rfl rfl (accepted_one hy.accepted),
      .grouping hy.respells, .grouping hy.renames⟩
  | unary op line y =>
    obtain ⟨y', hy⟩ := hparts.expression 0 y rfl rfl
    exact ⟨.expression (.unary op line y'), findings_eq_nil hdepth rfl rfl (accepted_one hy.accepted),
      .unary hy.respells, .unary hy.renames⟩
  | binary op line y z =>
    obtain ⟨y', hy⟩ := hparts.expression 0 y rfl rfl
    obtain ⟨z', hz⟩ := hparts.expression 1 z rfl rfl
    exact ⟨.expression (.binary op line y' z'),
      findings_eq_nil hdepth rfl rfl (accepted_two hy.accepted hz.accepted),
      .binary hy.respells hz.respells, .binary hy.renames hz.renames⟩
  | logical op y z =>
    obtain ⟨y', hy⟩ := hparts.expression 0 y rfl rfl
    obtain ⟨z', hz⟩ := hparts.expression 1 z rfl rfl
    exact ⟨.expression (.logical op y' z'),
      findings_eq_nil hdepth rfl rfl (accepted_two hy.accepted hz.accepted),
      .logical hy.respells hz.respells, .logical hy.renames hz.renames⟩
  | «variable» name mark =>
    have hname : name.text ≠ m := fun heq => h.fresh _ .refl (List.mem_singleton.2 heq.symm)
    have hready := Bearing.ownInitializers_scoping (g := g) (n := n) h.lacks hname
      (List.append_eq_nil_iff.1 hsound.ownFindings).2
    exact ⟨.expression (.variable _ ()), findings_eq_nil hdepth rfl hready (List.forall_mem_nil _),
      .variable ⟨_, rfl⟩, .variable (use_inScope h.lacks hname)⟩
  | assign name mark y =>
    have hname : name.text ≠ m := fun heq => h.fresh _ .refl (List.mem_singleton.2 heq.symm)
    obtain ⟨y', hy⟩ := hparts.expression 0 y rfl rfl
    exact ⟨.expression (.assign _ () y'), findings_eq_nil hdepth rfl rfl (accepted_one hy.accepted),
      .assign ⟨_, rfl⟩ hy.respells, .assign (use_inScope h.lacks hname) hy.renames⟩
  | call y line xs =>
    obtain ⟨y', hy⟩ := hparts.expression 0 y rfl rfl
    obtain ⟨u, hu⟩ := hparts 1 ⟨p.inside, .arguments xs⟩ rfl _ (scoping_inside_part 1 _)
    obtain ⟨xs', rfl⟩ := hu.respells.exists_arguments
    exact ⟨.expression (.call y' line xs'),
      findings_eq_nil hdepth rfl rfl (accepted_two hy.accepted hu.accepted),
      .call hy.respells hu.respells, .call hy.renames hu.renames⟩
  | get y name =>
    obtain ⟨y', hy⟩ := hparts.expression 0 y rfl rfl
    exact ⟨.expression (.get y' name), findings_eq_nil hdepth rfl rfl (accepted_one hy.accepted),
      .get hy.respells, .get hy.renames⟩
  | set y name z =>
    obtain ⟨z', hz⟩ := hparts.expression 0 z rfl rfl
    obtain ⟨y', hy⟩ := hparts.expression 1 y rfl rfl
    exact ⟨.expression (.set y' name z'),
      findings_eq_nil hdepth rfl rfl (accepted_two hz.accepted hy.accepted), .set hz.respells hy.respells,
      .set hz.renames hy.renames⟩
  | this line mark =>
    have hclass := hsound.inClass
    have hclass' := (Bearing.inClass_scoping (n := n) (m := m) (g := g)).trans hclass
    have huse : ∀ a, (NameRule.inScope n m).use g ⟨thisName, line⟩ a ⟨thisName, line⟩ a := fun a =>
      ⟨rfl, congrArg (Name.mk · line) (respelled_of_ne hn.symm).symm, fun _ => hm.symm⟩
    have hresolve : ∀ c : Scoping, c.inClass = true → (Expr.resolve c (.this line mark)).value =
        .this line (c.address thisName) := by
      intro c hc
      simp [Expr.resolve, hc]
    refine ⟨.expression (.this line ()),
      findings_eq_nil hdepth rfl (if_pos hclass') (List.forall_mem_nil _),
      .this ⟨false, Name.respelled_false.symm⟩, ?_⟩
    show Node.Alters _ g (.expression (Expr.resolve _ _).value) (.expression (Expr.resolve _ _).value)
    rw [hresolve _ hclass, hresolve _ hclass', Bearing.address_scoping_this h.lacks hn hm]
    exact .this (huse _)
  | lambda r =>
    obtain ⟨u, hu⟩ := hparts 0 ⟨p.inside, .routine .function r⟩ rfl _ (scoping_inside_part 0 _)
    obtain ⟨r', rfl⟩ := hu.respells.exists_routine
    exact ⟨.expression (.lambda r'), findings_eq_nil hdepth rfl rfl (accepted_one hu.accepted),
      .lambda hu.respells, .lambda hu.renames⟩

/-- The name of a function or a class in the scope is not the one that is exchanged. -/
theorem Renamable.keep {p : Place} {s : Stmt Unit} (h : Renamable n m g ⟨p, .statement s⟩) {name : Name}
    (hname : name.text ∈ s.fixed) : (NameRule.inScope n m).keep g name := by
  intro hown
  refine ⟨fun heq => ?_, fun heq => ?_⟩
  · cases g with
    | within k => exact h.aims (beq_iff_eq.1 hown) (heq ▸ hname)
    | apart | around path => cases hown
  · exact h.fresh _ .refl (Node.declared_subset_names _ (heq ▸ s.fixed_subset hname))

/-- A name that its declaration must leave alone is left alone. -/
theorem respelled_of_keep {name : Name} (h : (NameRule.inScope n m).keep g name) :
    name.respelled n m g.own = name := by
  cases hown : g.own with
  | false => exact Name.respelled_false
  | true => exact congrArg (Name.mk · name.line) (respelled_of_ne (h hown).1)

/-- A function or a class is declared under its own name, once, in the other program as well. -/
theorem Renamable.fixed {p : Place} {s : Stmt Unit} (h : Renamable n m g ⟨p, .statement s⟩) {name : Name}
    (hname : name.text ∈ s.fixed) (honce : p.scoping.redeclarations name = []) :
    (NameRule.inScope n m).keep g name ∧ (g.scoping n m p.scoping).redeclarations name = [] ∧
      g.scoping n m (p.scoping.put name.text true) = (g.scoping n m p.scoping).put name.text true := by
  have hkeep := h.keep hname
  have hsame := respelled_of_keep hkeep
  have hne : name.text ≠ m := fun heq =>
    h.fresh _ .refl (Node.declared_subset_names _ (heq ▸ s.fixed_subset hname))
  refine ⟨hkeep, ?_, ?_⟩
  · rw [← Bearing.redeclarations_scoping (g := g) (n := n) h.lacks hne honce, hsame]
  · rw [Bearing.scoping_put h.lacks hne true]
    exact congrArg (Scoping.put _ · true) (congrArg Name.text hsame)

/-- A statement whose parts can be renamed can be renamed, case by case. -/
theorem exists_renames_statement {p : Place} {s : Stmt Unit} (h : Renamable n m g ⟨p, .statement s⟩)
    (hparts : PartsRename n m g ⟨p, .statement s⟩) :
    ∃ u, Renames n m g ⟨p, .statement s⟩ (g.scoping n m p.scoping) u := by
  have hsound := h.sound _ .refl
  have hdepth : (g.scoping n m p.scoping).depthFindings = [] := by
    rw [Bearing.depthFindings_scoping]
    exact (List.append_eq_nil_iff.1 hsound.ownFindings).1
  cases s with
  | expression x =>
    obtain ⟨x', hx⟩ := hparts.expression 0 x rfl rfl
    exact ⟨.statement (.expression x'), findings_eq_nil hdepth rfl rfl (accepted_one hx.accepted),
      .expression hx.respells, .expression hx.renames⟩
  | print x =>
    obtain ⟨x', hx⟩ := hparts.expression 0 x rfl rfl
    exact ⟨.statement (.print x'), findings_eq_nil hdepth rfl rfl (accepted_one hx.accepted),
      .print hx.respells, .print hx.renames⟩
  | var name x =>
    have hname : name.text ≠ m := fun heq => h.fresh _ .refl (List.mem_singleton.2 heq.symm)
    have honce := Bearing.redeclarations_scoping (g := g) (n := n) h.lacks hname
      (List.append_eq_nil_iff.1 hsound.ownFindings).2
    have hrule : (NameRule.inScope n m).declare g name (name.respelled n m g.own) :=
      ⟨rfl, fun _ => hname⟩
    cases x with
    | none =>
      exact ⟨.statement (.var _ none), findings_eq_nil hdepth rfl honce (List.forall_mem_nil _),
        .unset ⟨_, rfl⟩, .unset hrule⟩
    | some x =>
      -- The initializer is resolved in the scopes that hold the name, not ready to be read.
      have hput := Bearing.scoping_put (g := g) (n := n) h.lacks hname false
      obtain ⟨u, hu⟩ := hparts 0 ⟨(p.put name.text false).inside, .expression x⟩ rfl _
        (scoping_inside_part 0 _)
      obtain ⟨x', rfl⟩ := hu.respells.exists_expression
      rw [show (p.put name.text false).scoping = p.scoping.put name.text false from rfl, hput] at hu
      exact ⟨.statement (.var _ (some x')), findings_eq_nil hdepth rfl honce (accepted_one hu.accepted),
        .var ⟨_, rfl⟩ hu.respells, .var hrule hu.renames⟩
  | block ss =>
    have henter := Bearing.scoping_enter (g := g) (n := n) (m := m) (c := p.scoping.inside) [] rfl
    rw [← Bearing.scoping_inside] at henter
    obtain ⟨u, hu⟩ := hparts 0 ⟨p.inBlock ss, .body ss⟩ rfl _ henter
    obtain ⟨ss', rfl⟩ := hu.respells.exists_body
    exact ⟨.statement (.block ss'), findings_eq_nil hdepth rfl rfl (accepted_one hu.accepted),
      .block hu.respells, .block hu.renames⟩
  | branch x t t' =>
    cases t' with
    | none =>
      obtain ⟨x', hx⟩ := hparts.expression 0 x rfl rfl
      obtain ⟨u, hu⟩ := hparts.statement 1 t rfl rfl
      exact ⟨.statement (.branch x' u none),
        findings_eq_nil hdepth rfl rfl (accepted_two hx.accepted hu.accepted),
        .ifThen hx.respells hu.respells, .ifThen hx.renames hu.renames⟩
    | some t' =>
      obtain ⟨x', hx⟩ := hparts.expression 0 x rfl rfl
      obtain ⟨u, hu⟩ := hparts.statement 1 t rfl rfl
      obtain ⟨u', hu'⟩ := hparts.statement 2 t' rfl rfl
      exact ⟨.statement (.branch x' u (some u')),
        findings_eq_nil hdepth rfl rfl
          (List.forall_mem_cons.2 ⟨hx.accepted, accepted_two hu.accepted hu'.accepted⟩),
        .ifElse hx.respells hu.respells hu'.respells, .ifElse hx.renames hu.renames hu'.renames⟩
  | «while» x t =>
    obtain ⟨x', hx⟩ := hparts.expression 0 x rfl rfl
    obtain ⟨u, hu⟩ := hparts.statement 1 t rfl rfl
    exact ⟨.statement (.while x' u),
      findings_eq_nil hdepth rfl rfl (accepted_two hx.accepted hu.accepted),
      .while hx.respells hu.respells, .while hx.renames hu.renames⟩
  | function name r =>
    obtain ⟨hkeep, honce, hput⟩ := h.fixed (List.mem_singleton_self _)
      (List.append_eq_nil_iff.1 hsound.ownFindings).2
    obtain ⟨u, hu⟩ := hparts 0 ⟨(p.put name.text true).inside, .routine .function r⟩ rfl _
      (scoping_inside_part 0 _)
    obtain ⟨r', rfl⟩ := hu.respells.exists_routine
    rw [show (p.put name.text true).scoping = p.scoping.put name.text true from rfl, hput] at hu
    exact ⟨.statement (.function name r'), findings_eq_nil hdepth rfl honce (accepted_one hu.accepted),
      .function trivial hu.respells, .function hkeep hu.renames⟩
  | «return» line x =>
    have hreturn : p.scoping.returnMisuses line x.isSome = [] :=
      (List.append_eq_nil_iff.1 hsound.ownFindings).2
    rw [← Bearing.returnMisuses_scoping (n := n) (m := m) (g := g)] at hreturn
    cases x with
    | none =>
      exact ⟨.statement (.return line none), findings_eq_nil hdepth rfl hreturn (List.forall_mem_nil _),
        .returnNothing, .returnNothing⟩
    | some x =>
      obtain ⟨x', hx⟩ := hparts.expression 0 x rfl rfl
      exact ⟨.statement (.return line (some x')),
        findings_eq_nil hdepth rfl hreturn (accepted_one hx.accepted), .return hx.respells,
        .return hx.renames⟩
  | «class» name ms =>
    obtain ⟨hkeep, honce, hput⟩ := h.fixed (List.mem_singleton_self _)
      (List.append_eq_nil_iff.1 hsound.ownFindings).2
    have hclass := Bearing.scoping_inClassBody (g := g) (n := n) (m := m)
      (c := (p.scoping.put name.text true).inside)
    rw [← Bearing.scoping_inside, hput] at hclass
    obtain ⟨u, hu⟩ := hparts 0 ⟨(p.put name.text true).inside.inClassBody ms, .methods ms⟩ rfl _ hclass
    obtain ⟨ms', rfl⟩ := hu.respells.exists_methods
    exact ⟨.statement (.class name ms'), findings_eq_nil hdepth rfl honce (accepted_one hu.accepted),
      .class trivial hu.respells, .class hkeep hu.renames⟩

/-- What a statement is renamed to declares the same names, with that of the scope exchanged. -/
theorem Renames.declared {p : Place} {s s' : Stmt Unit} {c : Scoping}
    (h : Renames n m g ⟨p, .statement s⟩ c (.statement s')) :
    s'.declared = s.declared.map (respelled n m g.own) := by
  have hdeclared : ∀ {t t' : Stmt Address},
      Node.Alters (.inScope n m) g (.statement t) (.statement t') →
      t'.declared = t.declared.map (respelled n m g.own) := by
    intro t t' ht
    -- A variable is declared under its respelled name. A function or a class in the scope keeps its name.
    cases ht with
    | unset hname | var hname =>
      rw [hname.1]
      rfl
    | function hkeep | «class» hkeep =>
      exact congrArg (fun name => [name]) (congrArg Name.text (respelled_of_keep hkeep)).symm
    | _ => rfl
  have hrenamed := hdeclared h.renames
  rwa [Stmt.declared_resolve, Stmt.declared_resolve] at hrenamed

/-- Statements one after the other, each at the place that the ones before it leave. -/
theorem exists_renames_body {p : Place} {ss : List (Stmt Unit)} (h : Renamable n m g ⟨p, .body ss⟩)
    (hparts : PartsRename n m g ⟨p, .body ss⟩) :
    ∃ u, Renames n m g ⟨p, .body ss⟩ (g.scoping n m p.scoping) u := by
  cases ss with
  | nil => exact ⟨.body [], rfl, .noStatements, .noStatements⟩
  | cons s ss =>
    obtain ⟨u, hu⟩ := hparts 0 ⟨p, .statement s⟩ rfl _ (Bearing.scoping_part 0).symm
    obtain ⟨s', rfl⟩ := hu.respells.exists_statement
    have hs : m ∉ s.declared := fun hs => h.fresh _ .refl (List.mem_flatMap_of_mem List.mem_cons_self hs)
    -- The renamed statement leaves the scopes that the statements after it are renamed in.
    have hafter := Bearing.scoping_after (g := g.part 0) h.lacks hs hu.declared
    rw [Bearing.scoping_part, Bearing.scoping_part, ← Bearing.scoping_part 1] at hafter
    obtain ⟨u', hu'⟩ := hparts 1 ⟨p.after s, .body ss⟩ rfl _ hafter.symm
    obtain ⟨ss', rfl⟩ := hu'.respells.exists_body
    exact ⟨.body (s' :: ss'), accepted_of_parts rfl (accepted_two hu.accepted hu'.accepted),
      .statements hu.respells hu'.respells, .statements hu.renames hu'.renames⟩

/-- A routine: the parameters are renamed in its scope, and then the body. -/
theorem exists_renames_routine {p : Place} {kind : RoutineKind} {r : Routine Unit}
    (h : Renamable n m g ⟨p, .routine kind r⟩) (hparts : PartsRename n m g ⟨p, .routine kind r⟩) :
    ∃ u, Renames n m g ⟨p, .routine kind r⟩ (g.scoping n m p.scoping) u := by
  obtain ⟨ps, ss⟩ := r
  have hps : ∀ q ∈ ps, q.text ≠ m := fun q hq heq => h.fresh _ .refl (List.mem_map.2 ⟨q, hq, heq⟩)
  have hroutine := Bearing.scoping_inRoutine (g := g) (n := n) h.lacks kind hps
  obtain ⟨u, hu⟩ := hparts 0 ⟨p.inRoutine kind (.mk ps ss), .body ss⟩ rfl _ hroutine
  obtain ⟨ss', rfl⟩ := hu.respells.exists_body
  -- The parameters are declared in the scope that is entered, which is empty before.
  have henter := Bearing.scoping_enter (g := g) (n := n) (m := m) (c := p.scoping) [] rfl
  have hdistinct := Bearing.parameterRedeclarations_scoping (g := g.enter) (n := n)
    (h.lacks.push (σ := []) rfl) hps (h.sound _ .refl).ownFindings
  rw [← henter] at hdistinct
  refine ⟨.routine kind (.mk (ps.map (Name.respelled n m g.enter.own)) ss'),
    accepted_of_parts hdistinct (accepted_one hu.accepted), .routine ?_ hu.respells, .routine ?_ hu.renames⟩
  · exact List.forall₂_map_right_iff.2 (List.forall₂_same.2 fun q _ => ⟨_, rfl⟩)
  · exact List.forall₂_map_right_iff.2 (List.forall₂_same.2 fun q hq => ⟨rfl, fun _ => hps q hq⟩)

/-- If an accepted program introduces a name in a scope and does not hold another, then there is a program
that it is renamed to. -/
theorem exists_renames (hn : n ≠ thisName) (hm : m ≠ thisName) (h : v.Renamable n m g) :
    ∃ u, v.Renames n m g (g.scoping n m v.place.scoping) u := by
  induction v using Visit.induction generalizing g with
  | step v ih =>
  -- The parts of a visit are renamed first, each seen from its own bearing.
  have hparts : v.PartsRename n m g := by
    rintro i w hw c rfl
    exact ih w (List.mem_of_getElem? hw) (h.part hm hw)
  obtain ⟨p, node⟩ := v
  have hplace : ∀ i, g.scoping n m p.scoping = (g.part i).scoping n m p.scoping :=
    fun i => (Bearing.scoping_part i).symm
  cases node with
  | expression x => exact exists_renames_expression hn hm h hparts
  | statement s => exact exists_renames_statement h hparts
  | arguments xs =>
    cases xs with
    | nil => exact ⟨.arguments [], rfl, .noArguments, .noArguments⟩
    | cons x xs =>
      obtain ⟨u, hu⟩ := hparts 0 ⟨p, .expression x⟩ rfl _ (hplace 0)
      obtain ⟨u', hu'⟩ := hparts 1 ⟨p, .arguments xs⟩ rfl _ (hplace 1)
      obtain ⟨x', rfl⟩ := hu.respells.exists_expression
      obtain ⟨xs', rfl⟩ := hu'.respells.exists_arguments
      exact ⟨.arguments (x' :: xs'), accepted_of_parts rfl (accepted_two hu.accepted hu'.accepted),
        .arguments hu.respells hu'.respells, .arguments hu.renames hu'.renames⟩
  | body ss => exact exists_renames_body h hparts
  | routine kind r => exact exists_renames_routine h hparts
  | methods ms =>
    rcases ms with - | ⟨⟨name, r⟩, ms⟩
    · exact ⟨.methods [], rfl, .noMethods, .noMethods⟩
    · obtain ⟨u, hu⟩ := hparts 0 ⟨p, .routine (methodKind name) r⟩ rfl _ (hplace 0)
      obtain ⟨u', hu'⟩ := hparts 1 ⟨p, .methods ms⟩ rfl _ (hplace 1)
      obtain ⟨r', rfl⟩ := hu.respells.exists_routine
      obtain ⟨ms', rfl⟩ := hu'.respells.exists_methods
      exact ⟨.methods ((name, r') :: ms'), accepted_of_parts rfl (accepted_two hu.accepted hu'.accepted),
        .methods hu.respells hu'.respells, .methods hu.renames hu'.renames⟩

end Visit

end Treewalk
