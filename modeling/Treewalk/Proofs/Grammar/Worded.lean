import Treewalk.Proofs.Grammar.Derivation
import Treewalk.Proofs.Scope.Place

/-!
# Names and nesting in programs

What the grammar keeps out of programs: a keyword is never a name, so nothing is declared by the name
of the receiver, and what stands in a branch of a conditional or in a loop is a statement and declares
nothing. Resolving meets worded nodes only (`AllWorded`) if it begins with a tree of the grammar.
-/

namespace Treewalk

/-- Every node that resolving comes to from here is worded. -/
def AllWorded (v : Visit) : Prop := ∀ w, v.Reaches w → w.node.Worded

/-- Names are in order throughout a node if they are at it and throughout its parts. -/
theorem AllWorded.intro {v : Visit} (h : v.node.Worded) (hparts : ∀ w ∈ v.parts, AllWorded w) :
    AllWorded v := by
  intro w hw
  rcases Relation.ReflTransGen.cases_head hw with rfl | ⟨u, hu, huw⟩
  · exact h
  · exact hparts u hu w huw

/-- A node of one part. -/
theorem AllWorded.of_one {v w : Visit} (h : v.node.Worded) (hparts : v.parts = [w])
    (hw : AllWorded w) : AllWorded v :=
  .intro h fun u hu => by
    rw [hparts] at hu
    obtain rfl := List.mem_singleton.1 hu
    exact hw

/-- A node of two parts. -/
theorem AllWorded.of_two {v w w' : Visit} (h : v.node.Worded) (hparts : v.parts = [w, w'])
    (hw : AllWorded w) (hw' : AllWorded w') : AllWorded v :=
  .intro h fun u hu => by
    rw [hparts] at hu
    rcases List.mem_cons.1 hu with rfl | hu
    · exact hw
    · obtain rfl := List.mem_singleton.1 hu
      exact hw'

/-- A part of a program in which no name stands. -/
theorem Node.Worded.of_none {node : Node Unit} (h : node.names = []) (hnested : node.Nested) :
    node.Worded := by
  refine ⟨fun n hn => ?_, hnested⟩
  rw [h] at hn
  cases hn

/-- A part of a program in which one name stands. -/
theorem Node.Worded.of_name {node : Node Unit} {n : String} (h : node.names = [n]) (hn : IsName n)
    (hnested : node.Nested) : node.Worded := by
  refine ⟨fun m hm => ?_, hnested⟩
  rw [h] at hm
  rw [List.mem_singleton.1 hm]
  exact hn

namespace Grammar

/-- What the grammar says of the trees of a kind of phrase, wherever resolving meets them. -/
def WordedTree : (p : Phrase) → p.Tree → Prop
  | .expression _, x => ∀ p, AllWorded ⟨p, .expression x⟩
  | .clause, x => ∀ y ∈ x, ∀ p, AllWorded ⟨p, .expression y⟩
  | .arguments, xs => ∀ p, AllWorded ⟨p, .arguments xs⟩
  | .routine, r => ∀ p kind, AllWorded ⟨p, .routine kind r⟩
  | .methods, ms => ∀ p, AllWorded ⟨p, .methods ms⟩
  | .varDeclaration, s | .declaration _, s => ∀ p, AllWorded ⟨p, .statement s⟩
  | .loopStart, s => ∀ t ∈ s, ∀ p, AllWorded ⟨p, .statement t⟩
  | .statement _, s => s.declared = [] ∧ ∀ p, AllWorded ⟨p, .statement s⟩
  | .declarations, ss => ∀ p, AllWorded ⟨p, .body ss⟩

/-- Arguments: the first, and the others. -/
theorem AllWorded_arguments {x : Expr Unit} {xs : List (Expr Unit)}
    (hx : ∀ p, AllWorded ⟨p, .expression x⟩) (hxs : ∀ p, AllWorded ⟨p, .arguments xs⟩) (p : Place) :
    AllWorded ⟨p, .arguments (x :: xs)⟩ :=
  .of_two (.of_none rfl trivial) rfl (hx p) (hxs p)

/-- No arguments. -/
theorem AllWorded_noArguments (p : Place) : AllWorded ⟨p, .arguments []⟩ :=
  .intro (.of_none rfl trivial) fun _ hw => by cases hw

/-- A statement that is an expression. -/
theorem AllWorded_statement {x : Expr Unit} (hx : ∀ p, AllWorded ⟨p, .expression x⟩) (p : Place) :
    AllWorded ⟨p, .statement (.expression x)⟩ :=
  .of_one (.of_none rfl trivial) rfl (hx p.inside)

/-- Statements one after another. -/
theorem AllWorded_body {s : Stmt Unit} {ss : List (Stmt Unit)}
    (hs : ∀ p, AllWorded ⟨p, .statement s⟩) (hss : ∀ p, AllWorded ⟨p, .body ss⟩) (p : Place) :
    AllWorded ⟨p, .body (s :: ss)⟩ := by
  refine .of_two ⟨fun n hn => ?_, trivial⟩ rfl (hs p) (hss (p.after s))
  rcases List.mem_append.1 hn with hn | hn
  · exact (hs p _ .refl).names n hn
  · exact (hss p _ .refl).names n hn

/-- No statements. -/
theorem AllWorded_noBody (p : Place) : AllWorded ⟨p, .body []⟩ :=
  .intro (.of_none rfl trivial) fun _ hw => by cases hw

/-- A loop, whose body is no declaration. -/
theorem AllWorded_while {x : Expr Unit} {s : Stmt Unit} (hx : ∀ p, AllWorded ⟨p, .expression x⟩)
    (hs : s.declared = []) (hs' : ∀ p, AllWorded ⟨p, .statement s⟩) (p : Place) :
    AllWorded ⟨p, .statement (.while x s)⟩ :=
  .of_two (.of_none rfl hs) rfl (hx p.inside) (hs' p.inside)

/-- A block. -/
theorem AllWorded_block {ss : List (Stmt Unit)} (hss : ∀ p, AllWorded ⟨p, .body ss⟩) (p : Place) :
    AllWorded ⟨p, .statement (.block ss)⟩ :=
  .of_one (.of_none rfl trivial) rfl (hss _)

/-- A loop with an initial statement is built of blocks and a `while` loop. -/
theorem wordedTree_forLoop {i : Option (Stmt Unit)} {c n : Option (Expr Unit)} {s : Stmt Unit}
    {k : Bool} (hi : WordedTree .loopStart i) (hc : WordedTree .clause c) (hn : WordedTree .clause n)
    (hs : WordedTree (.statement k) s) : WordedTree (.statement k) (Stmt.forLoop i c n s) := by
  have hcondition : ∀ p, AllWorded ⟨p, .expression (c.getD (.literal (.boolean true)))⟩ := by
    cases c with
    | none => exact fun p => .intro (.of_none rfl trivial) fun w hw => by cases hw
    | some c => exact hc c rfl
  -- The body of the loop in the tree, with the expression to go on with behind the body that was written.
  obtain ⟨body, hbody, hbody', hnone, hsome⟩ : ∃ body : Stmt Unit, body.declared = [] ∧
      (∀ p, AllWorded ⟨p, .statement body⟩) ∧
      Stmt.forLoop none c n s = .while (c.getD (.literal (.boolean true))) body ∧
      ∀ t, Stmt.forLoop (some t) c n s =
        .block [t, .while (c.getD (.literal (.boolean true))) body] := by
    cases n with
    | none => exact ⟨s, hs.1, hs.2, rfl, fun t => rfl⟩
    | some n =>
      refine ⟨.block [s, .expression n], rfl, AllWorded_block (AllWorded_body hs.2 ?_), rfl,
        fun t => rfl⟩
      exact AllWorded_body (AllWorded_statement (hn n rfl)) AllWorded_noBody
  have hwhile := AllWorded_while hcondition hbody hbody'
  cases i with
  | none =>
    rw [hnone]
    exact ⟨rfl, hwhile⟩
  | some t =>
    rw [hsome]
    exact ⟨rfl, AllWorded_block (AllWorded_body (hi t rfl) (AllWorded_body hwhile AllWorded_noBody))⟩

/-- Names that are separated by commas are among the tokens. -/
theorem Separated.mem {ts : List Token} {ns : List Name} (h : Separated (fun us n => us = [ident n]) ts ns)
    {n : Name} (hn : n ∈ ns) : ident n ∈ ts := by
  induction h with
  | one h =>
    rw [List.mem_singleton.1 hn, h]
    exact List.mem_singleton_self _
  | more h _ ih =>
    rcases List.mem_cons.1 hn with rfl | hn
    · rw [h]
      exact List.mem_append_left _ (List.mem_singleton_self _)
    · exact List.mem_append_right _ (List.mem_cons_of_mem _ (ih hn))

/-- The parameters of a routine are names among its tokens. -/
theorem Parameters.mem {ts : List Token} {ns : List Name} (h : Parameters ts ns) {n : Name}
    (hn : n ∈ ns) : ident n ∈ ts := by
  cases h with
  | none => cases hn
  | some h _ => exact h.mem hn

/-- Trees of the grammar are worded. -/
theorem Derives.worded {nearest : Bool} {d : Nat} {p : Phrase} {ts : List Token} {t : p.Tree}
    (h : Derives nearest d p ts t) (hts : ∀ t ∈ ts, ∀ w, t.lexeme = .identifier w → IsName w) :
    WordedTree p t := by
  have hname : ∀ {ts : List Token}, (∀ t ∈ ts, ∀ w, t.lexeme = .identifier w → IsName w) →
      ∀ n : Name, ident n ∈ ts → IsName n.text := fun hts n hn => hts _ hn _ rfl
  -- The names in a part are among the tokens of the part, which are tokens of the whole. What a rule adds
  -- is a name at most, and that is one of its own tokens.
  induction h with
  | @atom d t e h =>
    intro p
    have hatom := isAtom_of_atom? h
    have hnames : ∀ n ∈ (Node.expression e).names, IsName n := by
      intro n hn
      cases hatom with
      | «variable» =>
        -- Only a variable holds a name, and that is the identifier.
        cases List.mem_singleton.1 hn
        exact hts _ (List.mem_singleton_self _) _ rfl
      | _ => cases hn
    have hparts : ∀ w ∈ Visit.parts ⟨p, .expression e⟩, AllWorded w := by
      intro w hw
      cases hatom <;> cases hw
    refine .intro ⟨hnames, ?_⟩ hparts
    cases hatom <;> trivial
  | grouping h ih | unary _ h ih =>
    exact fun p => .of_one (.of_none rfl trivial) rfl (ih (fun t ht => hts t (by simp [ht])) p.inside)
  | @assign d ts n v l h ih =>
    have hn := hname hts n (by simp)
    exact fun p =>
      .of_one (.of_name rfl hn trivial) rfl (ih (fun t ht => hts t (by simp [ht])) p.inside)
  | lambda h ih =>
    exact fun p =>
      .of_one (.of_none rfl trivial) rfl (ih (fun t ht => hts t (by simp [ht])) p.inside .function)
  | callNothing h ih =>
    exact fun p => .of_two (.of_none rfl trivial) rfl
      (ih (fun t ht => hts t (by simp [ht])) p.inside) (AllWorded_noArguments _)
  | call h ha count ih iha =>
    exact fun p => .of_two (.of_none rfl trivial) rfl
      (ih (fun t ht => hts t (by simp [ht])) p.inside)
      (iha (fun t ht => hts t (by simp [ht])) p.inside)
  | @get d ts e n l h ih =>
    have hn := hname hts n (by simp)
    exact fun p =>
      .of_one (.of_name rfl hn trivial) rfl (ih (fun t ht => hts t (by simp [ht])) p.inside)
  | join hl hop hr ihl ihr =>
    have hleft := ihl fun t ht => hts t (by simp [ht])
    have hright := ihr fun t ht => hts t (by simp [ht])
    obtain ⟨op, rfl⟩ | ⟨op, line, rfl⟩ := join?_tree hop
    · exact fun p => .of_two (.of_none rfl trivial) rfl (hleft p.inside) (hright p.inside)
    · exact fun p => .of_two (.of_none rfl trivial) rfl (hleft p.inside) (hright p.inside)
  | tighter h ih => exact ih hts
  | @set d ts us o v n l l' h hv ih ihv =>
    have hn := hname hts n (by simp)
    exact fun p => .of_two (.of_name rfl hn trivial) rfl
      (ihv (fun t ht => hts t (by simp [ht])) p.inside)
      (ih (fun t ht => hts t (by simp [ht])) p.inside)
  | noClause | noStart =>
    intro y hy
    cases hy
  | clause h ih =>
    intro y hy
    cases hy
    exact ih hts
  | lastArgument h ih => exact AllWorded_arguments (ih hts) AllWorded_noArguments
  | argument h later ih ihl =>
    exact AllWorded_arguments (ih fun t ht => hts t (by simp [ht]))
      (ihl fun t ht => hts t (by simp [ht]))
  | @routine d ts us ns body l₁ l₂ l₃ l₄ hp h ih =>
    refine fun p kind => .of_one ⟨fun w hw => ?_, trivial⟩ rfl
      (ih (fun t ht => hts t (by simp [ht])) _)
    -- The parameters.
    obtain ⟨n, hn, rfl⟩ := List.mem_map.1 hw
    exact hname hts n (by simp [hp.mem hn])
  | noMethod => exact fun p => .intro (.of_none rfl trivial) fun w hw => by cases hw
  | @method d ts us n r ms h later ih ihl =>
    have hn := hname hts n (by simp)
    have hlater := ihl fun t ht => hts t (by simp [ht])
    refine fun p => .of_two ⟨fun w hw => ?_, trivial⟩ rfl
      (ih (fun t ht => hts t (by simp [ht])) p _) (hlater p)
    -- The name of this method, and those of the others.
    rcases List.mem_cons.1 hw with rfl | hw
    · exact hn
    · exact (hlater p _ .refl).names w hw
  | expression h ih => exact ⟨rfl, AllWorded_statement (ih fun t ht => hts t (by simp [ht]))⟩
  | print h ih =>
    exact ⟨rfl, fun p =>
      .of_one (.of_none rfl trivial) rfl (ih (fun t ht => hts t (by simp [ht])) p.inside)⟩
  | @«return» d ts v line l h ih =>
    have hv := ih fun t ht => hts t (by simp [ht])
    refine ⟨rfl, fun p => ?_⟩
    cases v with
    | none => exact .intro (.of_none rfl trivial) fun w hw => by cases hw
    | some v => exact .of_one (.of_none rfl trivial) rfl (hv v rfl p.inside)
  | block h ih => exact ⟨rfl, AllWorded_block (ih fun t ht => hts t (by simp [ht]))⟩
  | ifThen hc h ihc ih =>
    have hs := ih fun t ht => hts t (by simp [ht])
    exact ⟨rfl, fun p => .of_two (.of_none rfl ⟨hs.1, fun s hs => by cases hs⟩) rfl
      (ihc (fun t ht => hts t (by simp [ht])) p.inside) (hs.2 p.inside)⟩
  | ifElse hc h closed h' ihc ih ih' =>
    have hs := ih fun t ht => hts t (by simp [ht])
    have hs' := ih' fun t ht => hts t (by simp [ht])
    refine ⟨rfl, fun p => .intro (.of_none rfl ⟨hs.1, fun s hs => by cases hs; exact hs'.1⟩)
      fun w hw => ?_⟩
    simp only [Visit.parts, List.mem_cons, List.not_mem_nil, or_false] at hw
    obtain rfl | rfl | rfl := hw
    · exact ihc (fun t ht => hts t (by simp [ht])) p.inside
    · exact hs.2 p.inside
    · exact hs'.2 p.inside
  | «while» hc h ihc ih =>
    have hs := ih fun t ht => hts t (by simp [ht])
    exact ⟨rfl, AllWorded_while (ihc fun t ht => hts t (by simp [ht])) hs.1 hs.2⟩
  | «for» hi hc hn h ihi ihc ihn ih =>
    exact wordedTree_forLoop (ihi fun t ht => hts t (by simp [ht]))
      (ihc fun t ht => hts t (by simp [ht])) (ihn fun t ht => hts t (by simp [ht]))
      (ih fun t ht => hts t (by simp [ht]))
  | varStart h ih =>
    intro t ht
    cases ht
    exact ih hts
  | expressionStart h ih =>
    intro t ht
    cases ht
    exact AllWorded_statement (ih fun t ht => hts t (by simp [ht]))
  | @unset d n l l' =>
    have hn := hname hts n (by simp)
    exact fun p => .intro (.of_name rfl hn trivial) fun w hw => by cases hw
  | @var d ts n e l l' l'' h ih =>
    have hn := hname hts n (by simp)
    exact fun p => .of_one (.of_name rfl hn trivial) rfl (ih (fun t ht => hts t (by simp [ht])) _)
  | varDeclaration h ih => exact ih hts
  | @function d ts n r l h ih =>
    have hn := hname hts n (by simp)
    exact fun p => .of_one (.of_name rfl hn trivial) rfl (ih (fun t ht => hts t (by simp [ht])) _ _)
  | @«class» d ts n ms l₁ l₂ l₃ h ih =>
    have hn := hname hts n (by simp)
    exact fun p => .of_one (.of_name rfl hn trivial) rfl (ih (fun t ht => hts t (by simp [ht])) _)
  | statement h ih => exact (ih hts).2
  | noDeclaration => exact AllWorded_noBody
  | declarations h later ih ihl =>
    exact AllWorded_body (ih fun t ht => hts t (by simp [ht])) (ihl fun t ht => hts t (by simp [ht]))

end Grammar

end Treewalk
