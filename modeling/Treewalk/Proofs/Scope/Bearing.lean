import Treewalk.Proofs.Scope.Place

/-!
# Another name in one scope

One scope of a program is picked out, and in it one name is exchanged for a name that the program does
not hold. A `Bearing` says where a part of the program is as seen from that scope: away from it, around
it, or in it. From the bearing and the address of a use it can be told whether the use is one of the name
that changes (`Bearing.meets`).

`Bearing.scoping` is what is known at a place of the program with the other name. Every name, respelled,
is found there at the same address as before (`address_scoping`), and nothing is found to be wrong that
was not wrong before.
-/

namespace Treewalk

/-- A word after `n` is exchanged for `m`, if it is one of those that change. -/
def respelled (n m : String) (changes : Bool) (word : String) : String :=
  if changes = true ∧ word = n then m else word

/-- A name after `n` is exchanged for `m`, if it is one of those that change. -/
def Name.respelled (n m : String) (changes : Bool) (name : Name) : Name :=
  { name with text := Treewalk.respelled n m changes name.text }

/-- A scope with one name exchanged for another. -/
def Scope.respell (n m : String) (σ : Scope) : Scope :=
  σ.map fun e => (respelled n m true e.1, e.2)

section

variable {n m word : String} {changes : Bool}

/-- A word that does not change stays. -/
@[simp] theorem respelled_false : respelled n m false word = word :=
  if_neg fun h => Bool.noConfusion h.1

/-- The old word, where it changes, is the new one. -/
@[simp] theorem respelled_self : respelled n m true n = m := if_pos ⟨rfl, rfl⟩

/-- Other words than the old one never change. -/
theorem respelled_of_ne (h : word ≠ n) : respelled n m changes word = word := if_neg fun hw => h hw.2

/-- Words that are not the new one are told apart as before. -/
theorem respelled_inj {word' : String} (h : word ≠ m) (h' : word' ≠ m) :
    respelled n m changes word = respelled n m changes word' ↔ word = word' := by
  refine ⟨fun heq => ?_, fun heq => heq ▸ rfl⟩
  unfold respelled at heq
  split at heq <;> split at heq
  · next hw hw' => exact hw.2.trans hw'.2.symm
  · exact absurd heq.symm h'
  · exact absurd heq h
  · exact heq

/-- A name that does not change stays. -/
@[simp] theorem Name.respelled_false {name : Name} : name.respelled n m false = name := by
  simp [Name.respelled]

end

/-! ## Bearings -/

/-- Where a part of a program is, as seen from a scope. -/
inductive Bearing where
  /-- The scope is neither around the part nor in it. -/
  | apart
  /-- The block or routine that opens the scope is in the part, where the path leads by the numbers of
  the parts. -/
  | around (path : List Nat)
  /-- The part is in the scope, with so many scopes in between. -/
  | within (distance : Nat)
deriving DecidableEq, Repr

namespace Bearing

/-- The bearing of a part that is in no further scope. -/
def part : Bearing → Nat → Bearing
  | around (j :: path), i => if i = j then around path else apart
  | around [], _ => apart
  | g, _ => g

/-- The bearing of the body of a block or a routine. -/
def enter : Bearing → Bearing
  | around [] => within 0
  | within k => within (k + 1)
  | g => g.part 0

/-- The bearing of the methods of a class. -/
def inClass : Bearing → Bearing
  | within k => within (k + 1)
  | g => g.part 0

/-- Whether an address leads to the scope. -/
def meets : Bearing → Address → Bool
  | within k, .scope j => k == j
  | _, _ => false

/-- Whether a declaration is made in the scope. -/
abbrev own (g : Bearing) : Bool := g.meets (.scope 0)

/-- What is known at a place of the program in which the name is exchanged. -/
def scoping (n m : String) (g : Bearing) (c : Scoping) : Scoping :=
  match g with
  | within k => { c with scopes := c.scopes.modify k (Scope.respell n m) }
  | _ => c

end Bearing

/-! ## Scopes -/

/-- No scope around a place holds a name. -/
def Scoping.Lacks (c : Scoping) (m : String) : Prop := ∀ σ ∈ c.scopes, σ.holds m = false

namespace Scope

variable {n m word : String} {ready : Bool} {σ : Scope}

/-- A word in a scope that lacks the new one is another word. -/
theorem ne_of_mem (hm : σ.holds m = false) (h : (word, ready) ∈ σ) : word ≠ m := by
  rintro rfl
  rw [holds_iff.2 ⟨ready, h⟩] at hm
  cases hm

/-- A word stands in the scope with the other name where it stood before, in the same state. -/
theorem mem_respell (hm : σ.holds m = false) (hword : word ≠ m) :
    (respelled n m true word, ready) ∈ σ.respell n m ↔ (word, ready) ∈ σ := by
  unfold respell
  rw [List.mem_map]
  constructor
  · rintro ⟨⟨word', ready'⟩, hmem, heq⟩
    injection heq with heq hready
    rw [← (respelled_inj (ne_of_mem hm hmem) hword).1 heq, ← hready]
    exact hmem
  · exact fun hmem => ⟨_, hmem, rfl⟩

/-- What is not in a scope is not in the scope with the other name, unless it is that name. -/
theorem not_mem_respell (hword : word ≠ m) (h : (word, ready) ∉ σ) : (word, ready) ∉ σ.respell n m := by
  unfold respell
  rw [List.mem_map]
  rintro ⟨⟨word', ready'⟩, hmem, heq⟩
  injection heq with heq hready
  unfold respelled at heq
  split at heq
  · exact hword heq.symm
  · exact h (heq ▸ hready ▸ hmem)

/-- A scope with the other name holds the respelled words of before. -/
theorem holds_respell (hm : σ.holds m = false) (hword : word ≠ m) :
    (σ.respell n m).holds (respelled n m true word) = σ.holds word := by
  rw [Bool.eq_iff_iff, holds_iff, holds_iff]
  exact exists_congr fun b => mem_respell hm hword

/-- No word comes into a scope but the new one. -/
theorem not_holds_respell (hword : word ≠ m) (h : σ.holds word = false) :
    (σ.respell n m).holds word = false := by
  rw [Bool.eq_false_iff, ne_eq, holds_iff] at h ⊢
  rintro ⟨b, hb⟩
  exact not_mem_respell hword (fun hmem => h ⟨b, hmem⟩) hb

/-- Respelling a scope into which a word was put, or putting the respelled word, comes to the same. -/
theorem respell_put (hm : σ.holds m = false) (hword : word ≠ m) :
    (σ.put word ready).respell n m = (σ.respell n m).put (respelled n m true word) ready := by
  unfold respell put
  rw [List.map_cons, List.filter_map]
  refine congrArg _ (congrArg _ (List.filter_congr fun e he => ?_))
  rw [Function.comp_apply, Bool.eq_iff_iff, bne_iff_ne, bne_iff_ne]
  exact not_congr (respelled_inj (ne_of_mem hm he) hword).symm

/-- A scope still lacks the new word when another one is put into it. -/
theorem holds_put_eq_false (hm : σ.holds m = false) (hword : word ≠ m) :
    (σ.put word ready).holds m = false := by
  rw [Bool.eq_false_iff, ne_eq, holds_put, not_or]
  exact ⟨hword.symm, fun h => Bool.false_ne_true (hm.symm.trans h)⟩

end Scope

namespace Scoping.Lacks

variable {c : Scoping} {m word : String}

/-- Going inwards opens no scope. -/
theorem inside (h : c.Lacks m) : c.inside.Lacks m := h

/-- A scope that lacks the word may be opened. -/
theorem push (h : c.Lacks m) {σ : Scope} (hσ : σ.holds m = false) : (c.push σ).Lacks m := by
  intro σ' hσ'
  rcases List.mem_cons.1 hσ' with rfl | hσ'
  · exact hσ
  · exact h σ' hσ'

/-- A declaration of another word. -/
theorem put (h : c.Lacks m) (hword : word ≠ m) (ready : Bool) : (c.put word ready).Lacks m := by
  unfold Scoping.put
  split
  · exact h
  · next σ σs hscopes =>
    intro σ' hσ'
    rcases List.mem_cons.1 hσ' with rfl | hσ'
    · exact Scope.holds_put_eq_false (h σ (hscopes ▸ List.mem_cons_self)) hword
    · exact h σ' (hscopes ▸ List.mem_cons_of_mem σ hσ')

/-- Parameters with other names. -/
theorem foldl_define (h : c.Lacks m) {ps : List Name} (hps : ∀ p ∈ ps, p.text ≠ m) :
    (ps.foldl define c).Lacks m := by
  induction ps generalizing c with
  | nil => exact h
  | cons p ps ih =>
    exact ih (h.put (hps p List.mem_cons_self) true) fun q hq => hps q (List.mem_cons_of_mem p hq)

/-- The scope of a routine, whose parameters have other names. -/
theorem inRoutine (h : c.Lacks m) (kind : RoutineKind) {parameters : List Name}
    (hparameters : ∀ p ∈ parameters, p.text ≠ m) : (c.inRoutine kind parameters).Lacks m := by
  refine foldl_define (c := Scoping.push { c with routine := some kind } []) ?_ hparameters
  exact push h rfl

/-- The scope of a class holds the receiver, which is not the new word. -/
theorem inClassBody (h : c.Lacks m) (hm : m ≠ thisName) : c.inClassBody.Lacks m := by
  refine push h (Bool.eq_false_iff.2 fun hthis => ?_)
  obtain ⟨b, hb⟩ := Scope.holds_iff.1 hthis
  injection List.mem_singleton.1 hb with heq
  exact hm heq

/-- A statement that does not declare the word. -/
theorem after (h : c.Lacks m) {s : Stmt Unit} (hs : m ∉ s.declared) : (c.after s).Lacks m := by
  cases s with
  | var x i | function x r | «class» x ms =>
    exact h.put (fun heq => hs (List.mem_singleton.2 heq.symm)) true
  | _ => exact h

end Scoping.Lacks

/-! ## Places of the program with the other name -/

namespace Bearing

variable {n m word : String} {g : Bearing} {c : Scoping}

/-- No scope is opened between a node and its parts, so what is known stays the same. -/
@[simp] theorem scoping_part (i : Nat) : (g.part i).scoping n m c = g.scoping n m c := by
  cases g with
  | around path =>
    cases path with
    | nil => rfl
    | cons j path =>
      simp only [part]
      split <;> rfl
  | _ => rfl

/-- Going inwards changes the depth only, the exchanged name the scopes only. -/
theorem scoping_inside : (g.scoping n m c).inside = g.scoping n m c.inside := by cases g <;> rfl

/-- Whether the nesting is too deep does not depend on names. -/
@[simp] theorem depthFindings_scoping : (g.scoping n m c).depthFindings = c.depthFindings := by
  cases g <;> rfl

/-- Whether a `return` is misplaced does not depend on names. -/
@[simp] theorem returnMisuses_scoping (line : Int) (hasValue : Bool) :
    (g.scoping n m c).returnMisuses line hasValue = c.returnMisuses line hasValue := by
  cases g <;> rfl

/-- Whether the place is in a class does not depend on names. -/
@[simp] theorem inClass_scoping : (g.scoping n m c).inClass = c.inClass := by cases g <;> rfl

/-- Opening a scope that does not hold the old name: it is the scope of the bearing or one further in. -/
theorem scoping_enter (σ : Scope) (hσ : σ.respell n m = σ) :
    (g.scoping n m c).push σ = g.enter.scoping n m (c.push σ) := by
  cases g with
  | apart => rfl
  | around path =>
    cases path with
    | nil =>
      show c.push σ = { c with scopes := σ.respell n m :: c.scopes }
      rw [hσ]
      rfl
    | cons j path => exact (scoping_part (g := around (j :: path)) 0).symm
  | within k => rfl

/-- Opening a class, whose scope never is the one of the bearing. -/
theorem scoping_inClassBody :
    (g.scoping n m c).inClassBody = g.inClass.scoping n m c.inClassBody := by
  cases g with
  | around path => exact (scoping_part (g := around path) 0).symm
  | _ => rfl

/-- A declaration makes the same of a place, with its name respelled if it is made in the scope. -/
theorem scoping_put (hm : c.Lacks m) (hword : word ≠ m) (ready : Bool) :
    g.scoping n m (c.put word ready) = (g.scoping n m c).put (respelled n m g.own word) ready := by
  cases g with
  | within k =>
    obtain ⟨scopes, routine, inClass, depth, maxDepth⟩ := c
    cases scopes with
    | nil => cases k <;> rfl
    | cons σ σs =>
      cases k with
      -- The declaration is made in the scope itself: it is there that words are respelled.
      | zero =>
        have hput : (σ.put word ready).respell n m = (σ.respell n m).put (respelled n m true word) ready :=
          Scope.respell_put (hm σ List.mem_cons_self) hword
        exact congrArg (fun σ => Scoping.mk (σ :: σs) routine inClass depth maxDepth) hput
      -- It is made further in, or away from the scope, and does not change.
      | succ k =>
        show _ = Scoping.put _ (respelled n m false word) ready
        rw [respelled_false]
        rfl
  | apart | around path =>
    show c.put word ready = c.put (respelled n m false word) ready
    rw [respelled_false]

/-- Parameters, declared one after the other, are declared as in `scoping_put`. -/
theorem scoping_foldl (hm : c.Lacks m) {parameters : List Name}
    (hparameters : ∀ p ∈ parameters, p.text ≠ m) :
    (parameters.map (Name.respelled n m g.own)).foldl Scoping.define (g.scoping n m c) =
      g.scoping n m (parameters.foldl Scoping.define c) := by
  induction parameters generalizing c with
  | nil => rfl
  | cons p ps ih =>
    have hp := hparameters p List.mem_cons_self
    have hlater : (ps.map (Name.respelled n m g.own)).foldl Scoping.define
        (g.scoping n m (c.define p)) = g.scoping n m (ps.foldl Scoping.define (c.define p)) :=
      ih (hm.put hp true) fun q hq => hparameters q (List.mem_cons_of_mem p hq)
    rw [show g.scoping n m (c.define p) = _ from scoping_put hm hp true] at hlater
    exact hlater

/-- A routine makes the same of a place, with the parameters respelled if its scope is the one. -/
theorem scoping_inRoutine (hm : c.Lacks m) (kind : RoutineKind) {parameters : List Name}
    (hparameters : ∀ p ∈ parameters, p.text ≠ m) :
    (g.scoping n m c).inRoutine kind (parameters.map (Name.respelled n m g.enter.own)) =
      g.enter.scoping n m (c.inRoutine kind parameters) := by
  have hroutine : { g.scoping n m c with routine := some kind } =
      g.scoping n m { c with routine := some kind } := by cases g <;> rfl
  unfold Scoping.inRoutine
  rw [hroutine, scoping_enter [] rfl]
  exact scoping_foldl (Scoping.Lacks.push (c := { c with routine := some kind }) hm rfl) hparameters

/-- What follows a statement follows it, respelled. -/
theorem scoping_after (hm : c.Lacks m) {s s' : Stmt Unit} (hs : m ∉ s.declared)
    (hs' : s'.declared = s.declared.map (respelled n m g.own)) :
    g.scoping n m (c.after s) = (g.scoping n m c).after s' := by
  -- A statement declares one name at most.
  have hafter : ∀ (c : Scoping) (s : Stmt Unit),
      c.after s = s.declared.foldl (fun c word => c.put word true) c := by
    intro c s
    cases s <;> rfl
  rw [hafter, hafter, hs']
  cases hdeclared : s.declared with
  | nil => rfl
  | cons word words =>
    have hwords : words = [] := by
      cases s <;> simp_all [Stmt.declared]
    subst hwords
    exact scoping_put hm (fun heq => hs (hdeclared ▸ heq ▸ List.mem_cons_self)) true

/-! ## Addresses -/

/-- A name is found as far away as before if it is respelled along with the scope in which it is found.
The scopes are counted from `d`, and the one that is respelled is the `k`-th. -/
theorem addressFrom_modify (hword : word ≠ m) {σs : List Scope} {d k : Nat}
    (hσs : ∀ σ ∈ σs, σ.holds m = false) :
    Scoping.addressFrom d
        (respelled n m ((within (d + k)).meets (Scoping.addressFrom d word σs)) word)
        (σs.modify k (Scope.respell n m)) = Scoping.addressFrom d word σs := by
  induction σs generalizing d k with
  | nil => cases k <;> rfl
  | cons σ σs ih =>
    have hσ := hσs σ List.mem_cons_self
    cases hholds : σ.holds word with
    | true =>
      -- The name is found here, and it is respelled if this is the scope.
      have haddress : Scoping.addressFrom d word (σ :: σs) = .scope d := if_pos hholds
      rw [haddress]
      cases k with
      | zero =>
        have hmeets : (within (d + 0)).meets (.scope d) = true := by simp [meets]
        rw [hmeets]
        exact if_pos ((Scope.holds_respell hσ hword).trans hholds)
      | succ k =>
        have hmeets : (within (d + (k + 1))).meets (.scope d) = false := by simp [meets]
        rw [hmeets, respelled_false]
        exact if_pos hholds
    | false =>
      -- It is found further out, and this scope does not hold it in either spelling.
      have haddress : Scoping.addressFrom d word (σ :: σs) = Scoping.addressFrom (d + 1) word σs :=
        if_neg (Bool.eq_false_iff.1 hholds)
      rw [haddress]
      cases k with
      | zero =>
        have hmeets : (within (d + 0)).meets (Scoping.addressFrom (d + 1) word σs) = false := by
          cases hrest : Scoping.addressFrom (d + 1) word σs with
          | global => rfl
          | scope j =>
            have hle := Scoping.le_of_addressFrom hrest
            simp only [meets, beq_eq_false_iff_ne]
            omega
        rw [hmeets, respelled_false]
        exact if_neg (Bool.eq_false_iff.1 (Scope.not_holds_respell hword hholds))
      | succ k =>
        have hnot : σ.holds (respelled n m
            ((within (d + (k + 1))).meets (Scoping.addressFrom (d + 1) word σs)) word) = false := by
          unfold respelled
          split
          · exact hσ
          · exact hholds
        have hnext := ih (d := d + 1) (k := k) fun σ' hσ' => hσs σ' (List.mem_cons_of_mem σ hσ')
        rw [show d + 1 + k = d + (k + 1) by omega] at hnext
        exact (if_neg (Bool.eq_false_iff.1 hnot)).trans hnext

/-- A name, respelled if it is one of the scope, is found where it was found before. -/
theorem address_scoping (hm : c.Lacks m) (hword : word ≠ m) :
    (g.scoping n m c).address (respelled n m (g.meets (c.address word)) word) = c.address word := by
  cases g with
  | within k =>
    have haddress := addressFrom_modify (n := n) (d := 0) (k := k) hword hm
    rw [Nat.zero_add] at haddress
    exact haddress
  | apart | around path =>
    show c.address (respelled n m false word) = _
    rw [respelled_false]

/-- The receiver is found where it was found before. -/
theorem address_scoping_this (hm : c.Lacks m) (hn : n ≠ thisName) (hthis : m ≠ thisName) :
    (g.scoping n m c).address thisName = c.address thisName := by
  have haddress := address_scoping (g := g) (n := n) hm hthis.symm
  rwa [respelled_of_ne hn.symm] at haddress

/-! ## Findings -/

/-- A declaration that was no redeclaration is none with the other name. -/
theorem redeclarations_scoping (hm : c.Lacks m) {name : Name} (hname : name.text ≠ m)
    (h : c.redeclarations name = []) :
    (g.scoping n m c).redeclarations (name.respelled n m g.own) = [] := by
  cases g with
  | within k =>
    obtain ⟨scopes, routine, inClass, depth, maxDepth⟩ := c
    cases scopes with
    | nil => cases k <;> rfl
    | cons σ σs =>
      -- The words of the scope are told apart as before, so the respelled one is as new as the other.
      cases k with
      | zero =>
        have hholds : σ.holds name.text = false := by
          refine Bool.eq_false_iff.2 fun hholds => ?_
          have hfound : (if σ.holds name.text then [Finding.misuse name .redeclaration] else []) = [] := h
          rw [if_pos hholds] at hfound
          cases hfound
        have hrespell := (Scope.holds_respell (n := n) (hm σ List.mem_cons_self) hname).trans hholds
        exact if_neg (Bool.eq_false_iff.1 hrespell)
      -- The declaration is made further in, or away from the scope, and does not change.
      | succ k =>
        show Scoping.redeclarations _ (name.respelled n m false) = []
        rw [Name.respelled_false]
        exact h
  | apart | around path =>
    show c.redeclarations (name.respelled n m false) = []
    rw [Name.respelled_false]
    exact h

/-- Parameters that are different are different with the other name. -/
theorem parameterRedeclarations_scoping (hm : c.Lacks m) {parameters : List Name}
    (hparameters : ∀ p ∈ parameters, p.text ≠ m) (h : c.parameterRedeclarations parameters = []) :
    (g.scoping n m c).parameterRedeclarations (parameters.map (Name.respelled n m g.own)) = [] := by
  induction parameters generalizing c with
  | nil => rfl
  | cons p ps ih =>
    have hp := hparameters p List.mem_cons_self
    obtain ⟨hfirst, hlater⟩ := List.append_eq_nil_iff.1 h
    have hnext := ih (hm.put hp true) (fun q hq => hparameters q (List.mem_cons_of_mem p hq)) hlater
    rw [scoping_put hm hp true] at hnext
    exact List.append_eq_nil_iff.2 ⟨redeclarations_scoping hm hp hfirst, hnext⟩

/-- A use that was in no initializer of its own is in none with the other name. -/
theorem ownInitializers_scoping (hm : c.Lacks m) {name : Name} (hname : name.text ≠ m)
    (h : c.ownInitializers name = []) : (g.scoping n m c).ownInitializers
      (name.respelled n m (g.meets (c.address name.text))) = [] := by
  cases g with
  | within k =>
    obtain ⟨scopes, routine, inClass, depth, maxDepth⟩ := c
    cases scopes with
    | nil => cases k <;> rfl
    | cons σ σs =>
      -- The name is not being initialized in the given scope. In the renamed one it is looked up under
      -- its new spelling, which no other name has there.
      have hready : (name.text, false) ∉ σ := by
        intro hmem
        have hunready : σ.unready name.text = true := List.contains_iff_mem.2 hmem
        have hfound : (if σ.unready name.text then [Finding.misuse name .ownInitializer] else []) = [] := h
        rw [if_pos hunready] at hfound
        cases hfound
      have hσ := hm σ List.mem_cons_self
      cases k with
      | zero =>
        refine if_neg fun hunready => ?_
        have hmem : (_, false) ∈ σ.respell n m := List.contains_iff_mem.1 hunready
        cases hmeets : (within 0).meets (Scoping.address ⟨σ :: σs, routine, inClass, depth, maxDepth⟩
          name.text) with
        | true =>
          rw [hmeets] at hmem
          exact hready ((Scope.mem_respell hσ hname).1 hmem)
        | false =>
          rw [hmeets] at hmem
          rw [Name.respelled_false] at hmem
          exact Scope.not_mem_respell hname hready hmem
      | succ k =>
        refine if_neg fun hunready => ?_
        have hmem : (_, false) ∈ σ := List.contains_iff_mem.1 hunready
        unfold Name.respelled respelled at hmem
        simp only at hmem
        split at hmem
        · exact Scope.ne_of_mem hσ hmem rfl
        · exact hready hmem
  | apart | around path =>
    show c.ownInitializers (name.respelled n m false) = []
    rw [Name.respelled_false]
    exact h

end Bearing

end Treewalk
