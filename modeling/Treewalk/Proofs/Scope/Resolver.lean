import Treewalk.Proofs.Scope.Marks

/-!
# What a resolver keeps from program to program

A resolver that walks over a part of a program comes back with everything as it was, but for the names
that the part declares in the innermost scope, the table, and the reports (`Resolver.Kept`). Outside of
all scopes nothing at all is carried over to the statements that follow, so a program of two parts is
resolved as its parts are, and a program that is resolved again gets the same table and the same reports,
whatever was resolved in between (`Resolver.walk_kept`).

Both follow from `Brackets.onto`: what a walk writes and reports can be told from a walk by a resolver
that has neither a table nor reports yet.
-/

namespace Treewalk

variable {κ : Type}

/-- The address that an entry of a table tells. Global names have no entry. -/
def Address.ofEntry : Option Nat → Address
  | none => .global
  | some distance => .scope distance

namespace Resolver

/-- A resolver before it resolves anything. -/
def initial : Resolver κ := ⟨[], fun _ => none, none, false, []⟩

/-- What is left of a resolver after a walk over a part of a program. -/
structure Kept (node : Node κ) (r r' : Resolver κ) : Prop where
  routine : r'.routine = r.routine
  inClass : r'.inClass = r.inClass
  length : r'.scopes.length = r.scopes.length
  /-- The scopes around the innermost one are unchanged. -/
  below : r'.scopes.tail = r.scopes.tail
  /-- The innermost scope has gained the names that the part declares there, and these have their
  values. -/
  innermost : ∀ σ ∈ r.scopes.head?, ∃ σ' ∈ r'.scopes.head?, ∀ name ready,
    (name, ready) ∈ σ' ↔ if name ∈ node.gains then ready = true else (name, ready) ∈ σ
  /-- A new entry of the table is at the key of a use of a name in the part, and its distance is below the
  number of the scopes that are open there. -/
  locals : ∀ key, r'.locals key = r.locals key ∨ ∃ path m distance, node.at? path = some m ∧
    m.key? = some key ∧ r'.locals key = some distance ∧
    distance < r.scopes.length + (node.scopesAround path).length
  /-- What was reported stays reported. -/
  misuses : r.misuses <+: r'.misuses

/-- A resolver without a table and without reports. -/
def blank (r : Resolver κ) : Resolver κ := { r with locals := fun _ => none, misuses := [] }

/-- A fresh resolver put on one has done nothing more. -/
theorem blank_onto (r : Resolver κ) : r.blank.onto r = r := by
  simp [blank, onto]

section

variable {f : Resolver κ → Resolver κ} {puts : List (String × Bool)} {W : κ → Nat → Prop}

/-- What a walk writes and reports is what it does with no table and no reports, after what was there. -/
theorem Brackets.eq_onto (h : Brackets f puts W) (r : Resolver κ) : f r = (f r.blank).onto r := by
  rw [← h.onto, blank_onto]

end

/-- After names are put into a scope as ready, these are ready and the others as they were. -/
theorem mem_foldl_ready (names : List String) (σ : Scope) (name : String) (b : Bool) :
    (name, b) ∈ (ready names).foldl (fun σ put => σ.put put.1 put.2) σ ↔
      if name ∈ names then b = true else (name, b) ∈ σ := by
  induction names generalizing σ with
  | nil => simp [ready]
  | cons n names ih =>
    show (name, b) ∈ (ready names).foldl _ (σ.put n true) ↔ _
    rw [ih, Scope.mem_put]
    by_cases hn : name = n <;> by_cases hnames : name ∈ names <;> simp [hn, hnames]

/-- A well bracketed walk over a node keeps what `Kept` asks for. -/
theorem Brackets.kept {f : Resolver κ → Resolver κ} {node : Node κ}
    -- Every field is one of `Brackets`, read for the names that the node gains and the keys that it writes.
    (h : Brackets f (Resolver.ready node.gains) node.Writes) (r : Resolver κ) : Kept node r (f r) where
  routine := h.routine r
  inClass := h.inClass r
  length := by rw [h.scopes, length_settle]
  below := by
    rw [h.scopes]
    cases r.scopes <;> rfl
  innermost σ hσ := by
    obtain ⟨σs, hscopes⟩ := List.head?_eq_some_iff.1 hσ
    refine ⟨_, ?_, mem_foldl_ready node.gains σ⟩
    rw [h.scopes, hscopes]
    rfl
  locals k := by
    refine (h.locals r k).imp_right ?_
    rintro ⟨n, d, ⟨path, m, hm, hkey, rfl⟩, hd, hlt⟩
    exact ⟨path, m, d, hm, hkey, hd, hlt⟩
  misuses := by
    rw [h.eq_onto r]
    exact List.prefix_append _ _

variable [DecidableEq κ]

/-- What a resolver reports of a program. -/
def reports (program : List (Stmt κ)) (r : Resolver κ) : List (Name × Misuse) :=
  (resolve program { r with misuses := [] }).misuses

section

variable (program first second : List (Stmt κ)) (r : Resolver κ)

/-- Whatever was reported before, a program is given the same table, and its reports follow. -/
theorem resolve_eq_onto : resolve program r =
    (resolve program { r with misuses := [] }).onto { r with scopes := [], locals := fun _ => none } :=
  (Stmt.bracketsList program).eq_onto { r with scopes := [], locals := fun _ => none }

/-- Reports are added behind those that there were. -/
theorem misuses_resolve : (resolve program r).misuses = r.misuses ++ reports program r :=
  congrArg misuses (resolve_eq_onto program r)

/-- The distances do not depend on what was reported before. -/
theorem locals_resolve :
    (resolve program r).locals = (resolve program { r with misuses := [] }).locals := by
  rw [resolve_eq_onto]
  funext k
  exact Option.or_none

/-- After a program a resolver is where it was, outside of all scopes. -/
theorem resolve_after (other : List (Stmt κ)) :
    resolve program { resolve other r with misuses := [] } = resolve program { r with misuses := [] } := by
  have hother := Stmt.bracketsList other
  unfold resolve
  rw [hother.routine, hother.inClass]

/-- A walk over two lists is one walk after the other. -/
theorem walkList_append :
    Stmt.walkList (first ++ second) r = Stmt.walkList second (Stmt.walkList first r) := by
  induction first generalizing r with
  | nil => rfl
  | cons s first ih => exact ih (s.walk r)

/-- A program of two parts is resolved as its parts are. -/
theorem resolve_append : resolve (first ++ second) r =
    (resolve second { r with misuses := [] }).onto (resolve first r) := by
  have hfirst := Stmt.bracketsList first
  have hsecond := Stmt.bracketsList second
  -- Outside of all scopes nothing is gained: the second part starts where the first one did, with only the
  -- table and the reports of the first.
  have hblank : (resolve first r).blank =
      { r with scopes := [], locals := fun _ => none, misuses := [] } := by
    unfold blank resolve
    rw [hfirst.scopes, hfirst.routine, hfirst.inClass]
    rfl
  have happend : resolve (first ++ second) r = Stmt.walkList second (resolve first r) :=
    walkList_append first second _
  rw [happend, hsecond.eq_onto, hblank]
  rfl

/-- The reports about a longer program are those about its first statements, then those about the others. -/
theorem reports_append : reports (first ++ second) r = reports first r ++ reports second r :=
  congrArg misuses (resolve_append first second { r with misuses := [] })

end

/-! ## The table and the marks -/

/-- A table is not changed at other keys than those of the entries. -/
theorem record_of_notMem {entries : List (κ × Address)} {key : κ} (h : key ∉ entries.map Prod.fst)
    (table : κ → Option Nat) : record table entries key = table key := by
  induction entries generalizing table with
  | nil => rfl
  | cons e entries ih =>
    obtain ⟨hne, hrest⟩ := not_or.1 (mt List.mem_cons.2 h)
    obtain ⟨k, - | d⟩ := e
    · exact ih hrest table
    · exact (ih hrest _).trans (if_neg hne)

/-- Written at keys of their own, addresses are read again. -/
theorem map_record {keys : List κ} {addresses : List Address} (hlength : keys.length = addresses.length)
    (hkeys : keys.Nodup) {table : κ → Option Nat} (htable : ∀ key ∈ keys, table key = none) :
    keys.map (fun key => Address.ofEntry (record table (keys.zip addresses) key)) = addresses := by
  induction keys generalizing addresses table with
  | nil => exact (List.length_eq_zero_iff.1 hlength.symm).symm
  | cons key keys ih =>
    cases addresses with
    | nil => cases hlength
    | cons a addresses =>
      obtain ⟨hkey, hrest⟩ := List.nodup_cons.1 hkeys
      -- The key does not come again, so what is written at it now is read at the end.
      have hlater : key ∉ (keys.zip addresses).map Prod.fst := fun hmem =>
        hkey (List.map_fst_zip (Nat.le_of_succ_le_succ hlength.le) ▸ hmem)
      have hothers : ∀ k ∈ keys, k ≠ key := fun k hk heq => hkey (heq ▸ hk)
      have hempty : ∀ k ∈ keys, table k = none := fun k hk => htable k (.tail _ hk)
      cases a with
      | global =>
        refine congrArg₂ List.cons ?_ (ih (Nat.succ.inj hlength) hrest hempty)
        show Address.ofEntry (record table (keys.zip addresses) key) = _
        rw [record_of_notMem hlater, htable key (.head _)]
        rfl
      | scope d =>
        refine congrArg₂ List.cons ?_ (ih (Nat.succ.inj hlength) hrest fun k hk => ?_)
        · show Address.ofEntry (record _ (keys.zip addresses) key) = _
          rw [record_of_notMem hlater, if_pos rfl]
          rfl
        · rw [if_neg (hothers k hk), hempty k hk]

/-- What a resolver writes and reports of a program is what resolving marks and finds. -/
theorem tells_resolveProgram {depth : Nat} {text : String} {line : Int} {program : List (Stmt κ)}
    (h : (parseProgram depth (Scan.ofText text line).tokens).outcome = .ok (Stmt.unmarkedList program))
    (maxDepth : Nat) :
    initial.Tells (resolve program initial) (Stmt.marksList program)
      (resolveProgram maxDepth (Stmt.unmarkedList program)).findings
      (Stmt.marksList (resolveProgram maxDepth (Stmt.unmarkedList program)).value) := by
  have hworded := Grammar.parseProgram_worded h (.outermost maxDepth)
  have hnested : (Node.body (Stmt.unmarkedList program)).NestedThroughout :=
    Visit.nestedThroughout fun w hw => (hworded w hw).nested
  exact Stmt.tellsList program hnested ⟨rfl, rfl, rfl⟩

end Resolver

/-- The walk of a resolver is well bracketed. From any state, whether it reports errors or not, a walk over
any part of a program leaves the routine, the class and the scopes that the resolver is in; the innermost
scope has gained the names declared there, with their values; and the table has changed only at the keys of
uses of names in the part, to distances within the scopes open there.

So a resolver keeps nothing from one program to the next. Resolved again, whatever was resolved in between,
a program has the same table and the same reports. A program of two parts has the entries of both tables,
those of the second part first, and the reports of the first part followed by those of the second.

What the resolver writes and reports of a program read from a text is what `resolveProgram` marks and
finds, if every use of a name has its own key. -/
theorem Resolver.walk_kept [DecidableEq κ] :
    (∀ (node : Node κ) (r : Resolver κ), Kept node r (node.walk r)) ∧
    (∀ (program other : List (Stmt κ)) (r : Resolver κ),
      (resolve program r).misuses = r.misuses ++ reports program r ∧
      (resolve program (resolve other r)).locals = (resolve program r).locals ∧
      reports program (resolve other r) = reports program r) ∧
    (∀ (first second : List (Stmt κ)) (r : Resolver κ),
      (∀ key, (resolve (first ++ second) r).locals key =
        ((resolve second r).locals key).or ((resolve first r).locals key)) ∧
      reports (first ++ second) r = reports first r ++ reports second r) ∧
    (∀ (maxDepth : Nat) (first second : List (Stmt Unit)),
      (resolveProgram maxDepth (first ++ second)).value =
          (resolveProgram maxDepth first).value ++ (resolveProgram maxDepth second).value ∧
        (resolveProgram maxDepth (first ++ second)).findings =
          (resolveProgram maxDepth first).findings ++ (resolveProgram maxDepth second).findings) ∧
    ∀ (depth maxDepth : Nat) (text : String) (line : Int) (program : List (Stmt κ)),
      (parseProgram depth (Scan.ofText text line).tokens).outcome = .ok (Stmt.unmarkedList program) →
      (Stmt.marksList program).Nodup →
      Stmt.marksList (resolveProgram maxDepth (Stmt.unmarkedList program)).value =
          (Stmt.marksList program).map
            (fun key => Address.ofEntry ((resolve program initial).locals key)) ∧
        reports program initial =
          (resolveProgram maxDepth (Stmt.unmarkedList program)).findings.filterMap Finding.misuse? := by
  refine ⟨fun node r => node.brackets.kept r, fun program other r => ⟨misuses_resolve program r, ?_, ?_⟩,
    fun first second r => ⟨fun key => ?_, reports_append first second r⟩, resolveProgram_append,
    fun depth maxDepth text line program h hkeys => ?_⟩
  -- What was resolved before shows in the table only, and that is not looked at.
  · rw [locals_resolve, resolve_after, ← locals_resolve]
  · exact congrArg misuses (resolve_after program r other)
  · rw [resolve_append, locals_resolve second]
    rfl
  -- From here on with the keys of a text: the table, read at the keys, holds the marks.
  · have htells := tells_resolveProgram h maxDepth
    refine ⟨?_, htells.misuses⟩
    rw [htells.locals]
    exact (map_record htells.length hkeys fun _ _ => rfl).symm

/-- A variable in a block that is read in its own initializer. -/
theorem Resolver.walk_kept_ownInitializer :
    (parseProgram 300 (Scan.ofText "\x7bvar a=a;\x7d" 1).tokens).outcome = .ok
        (Stmt.unmarkedList [.block [.var ⟨"a", 1⟩ (some (.variable ⟨"a", 1⟩ 7))]]) ∧
      (Stmt.marksList [.block [.var ⟨"a", 1⟩ (some (.variable ⟨"a", 1⟩ 7))]]).Nodup ∧
      [Address.scope 0] = [Address.ofEntry ((resolve
        [.block [.var ⟨"a", 1⟩ (some (.variable ⟨"a", 1⟩ 7))]] initial).locals 7)] ∧
      reports [.block [.var ⟨"a", 1⟩ (some (.variable ⟨"a", 1⟩ 7))]] initial =
        [(⟨"a", 1⟩, .ownInitializer)] := by
  -- The name is used in its own initializer, which is reported, and has an address all the same.
  have htokens : (Scan.ofText "\x7bvar a=a;\x7d" 1).tokens =
      [Grammar.sym .leftBrace 1, Grammar.word .var 1, Grammar.ident ⟨"a", 1⟩, Grammar.sym .equal 1,
        Grammar.ident ⟨"a", 1⟩, Grammar.sym .semicolon 1, Grammar.sym .rightBrace 1] := by
    decide +kernel
  have h : (parseProgram 300 (Scan.ofText "\x7bvar a=a;\x7d" 1).tokens).outcome = .ok
      (Stmt.unmarkedList [.block [.var ⟨"a", 1⟩ (some (.variable ⟨"a", 1⟩ 7))]]) := by
    rw [htokens]
    exact congrArg Parsed.outcome (Grammar.reads_of_derives (.declarations (.statement (.block (d := 299)
      (.declarations (.varDeclaration (.var (.variable ⟨"a", 1⟩))) .noDeclaration))) .noDeclaration))
  have hkeys : (Stmt.marksList [.block [.var ⟨"a", 1⟩ (some (.variable ⟨"a", 1⟩ 7))]]).Nodup := by
    decide
  obtain ⟨htable, hreports⟩ := Resolver.walk_kept.2.2.2.2 300 300 _ 1 _ h hkeys
  exact ⟨h, hkeys, htable, hreports.trans (by decide +kernel)⟩

end Treewalk
