import Treewalk.Proofs.Grammar.Derivation
import Treewalk.Proofs.Grammar.Halting

/-!
# What the grammar reads is a phrase

Everything that the parsers of the grammar read without a report is a phrase of `Derivation.lean`, and
what they give back is its tree (`derives_of_reads`). An `else` is taken by the first statement that
can have it, so it belongs to the nearest open `if`.

The parsers of one level take those of the level further in as given. So the proof is an induction on
the number of levels (`Level.sound_ofDepth`), in which each parser of a level has one lemma.
-/

namespace Treewalk.Parser

open Treewalk.Grammar (Separated sym)

variable {α β : Type}

/-- Everything that a parser reads is of the given kind. -/
def ReadsOnly (p : Parser α) (D : List Token → α → Prop) : Prop :=
  ∀ ts a rest, p.Reads ts a rest → ∃ used, ts = used ++ rest ∧ D used a

/-- What is read after some items is nothing, or a comma and items with commas between them. -/
theorem Extends.afterComma {item : Parser α} {Item : List Token → α → Prop}
    (hitem : item.ReadsOnly Item) {tooMany : SyntaxFault} {items items' : Array α}
    {ts rest : List Token} (h : Extends (afterComma item tooMany) items ts items' rest) :
    ts = rest ∧ items' = items ∨
      ∃ l us more, ts = sym .comma l :: us ++ rest ∧ Separated Item us more ∧
        items'.toList = items.toList ++ more ∧ items'.size ≤ maxArguments := by
  -- One round is a comma and an item, and the rounds after it are separated by induction.
  induction h with
  | stop h => exact .inl ⟨rfl, rfl⟩
  | @round items items₁ items' t ts mid rest p h hp later ih =>
    unfold Parser.afterComma at h
    split at h
    · next hcomma =>
      injection h with h
      subst h
      obtain ⟨lexeme, line⟩ := t
      simp only at hcomma
      subst hcomma
      unfold anotherItem at hp
      obtain ⟨u, ts', hnote, hrest⟩ := reads_bind.1 hp
      obtain ⟨hfew, rfl⟩ := reads_noteIf.1 hnote
      obtain ⟨a, mid', ha, hpush⟩ := reads_bind.1 hrest
      obtain ⟨rfl, rfl⟩ := reads_pure.1 hpush
      obtain ⟨used, rfl, hused⟩ := hitem _ _ _ ha
      have hsize : (items.push a).size ≤ maxArguments := by
        rw [Array.size_push]
        omega
      right
      rcases ih with ⟨rfl, rfl⟩ | ⟨l, us, more, rfl, hsep, htoList, hmax⟩
      · exact ⟨line, used, [a], rfl, .one hused, by rw [Array.toList_push], hsize⟩
      · refine ⟨line, used ++ sym .comma l :: us, a :: more, ?_, .more hused hsep, ?_, hmax⟩
        · simp
        · rw [htoList, Array.toList_push, List.append_assoc, List.singleton_append]
    · cases h

/-- Items with commas between them are read as such, at most so many as are allowed. -/
theorem ReadsOnly.commaSeparated {item : Parser α} {Item : List Token → α → Prop}
    (hitem : item.ReadsOnly Item) (tooMany : SyntaxFault) :
    (commaSeparated item tooMany).ReadsOnly fun ts as =>
      Separated Item ts as ∧ as.length ≤ maxArguments := by
  intro ts as rest h
  unfold Parser.commaSeparated at h
  obtain ⟨a, mid, ha, hloop⟩ := reads_bind.1 h
  obtain ⟨items, mid', hitems, hpure⟩ := reads_bind.1 hloop
  obtain ⟨rfl, rfl⟩ := reads_pure.1 hpure
  obtain ⟨used, rfl, hused⟩ := hitem _ _ _ ha
  -- There is one item only, or a comma and more of them.
  rcases (reads_extend.1 hitems).afterComma hitem with
    ⟨rfl, rfl⟩ | ⟨l, us, more, rfl, hsep, htoList, hmax⟩
  · exact ⟨used, rfl, .one hused, (by decide : 1 ≤ maxArguments)⟩
  · refine ⟨used ++ sym .comma l :: us, by simp, ?_, by simpa using hmax⟩
    rw [htoList]
    exact .more hused hsep

/-- What is read unless a symbol follows is either nothing or what the parser reads. -/
theorem ReadsOnly.unlessNext {p : Parser α} {D : List Token → α → Prop} (hp : p.ReadsOnly D)
    (lexeme : Lexeme) (nothing : α) :
    (unlessNext lexeme nothing p).ReadsOnly fun ts a => ts = [] ∧ a = nothing ∨ D ts a := by
  intro ts a rest h
  rcases reads_unlessNext.1 h with ⟨-, rfl, rfl⟩ | ⟨-, h⟩
  · exact ⟨[], rfl, .inl ⟨rfl, rfl⟩⟩
  · obtain ⟨used, rfl, hused⟩ := hp _ _ _ h
    exact ⟨used, rfl, .inr hused⟩

/-- What a parser reads is known of the changed result as well. -/
theorem ReadsOnly.map {p : Parser α} {D : List Token → α → Prop} (hp : p.ReadsOnly D) (f : α → β) :
    (f <$> p).ReadsOnly fun ts b => ∃ a, b = f a ∧ D ts a := by
  intro ts b rest h
  obtain ⟨a, ha, rfl⟩ := reads_map.1 h
  obtain ⟨used, rfl, hused⟩ := hp _ _ _ ha
  exact ⟨used, rfl, a, rfl, hused⟩

/-- A loop keeps what each of its rounds keeps of the tokens that were taken so far. -/
theorem Extends.readsOnly {next : β → Token → Option (Parser β)} {D : List Token → β → Prop}
    (hround : ∀ used b t p, D used b → next b t = some p →
      p.ReadsOnly fun us b' => D (used ++ t :: us) b') {b c : β} {ts rest : List Token}
    (h : Extends next b ts c rest) :
    ∀ used, D used b → ∃ more, ts = more ++ rest ∧ D (used ++ more) c := by
  induction h with
  | stop => exact fun used hD => ⟨[], rfl, by rwa [List.append_nil]⟩
  | @round b b' c t ts mid rest p hnext hp later ih =>
    intro used hD
    obtain ⟨us, rfl, hD'⟩ := hround used b t p hD hnext _ _ _ hp
    obtain ⟨more, rfl, hmore⟩ := ih _ hD'
    exact ⟨t :: us ++ more, by simp, by simpa using hmore⟩

/-- A parser of a name reads a name. -/
theorem readsOnly_name (fault : SyntaxFault) :
    (name fault).ReadsOnly fun ts n => ts = [Grammar.ident n] := by
  intro ts n rest h
  exact ⟨[Grammar.ident n], reads_name.1 h, rfl⟩

end Treewalk.Parser

namespace Treewalk.Grammar

open Treewalk.Parser

/-- A phrase one level further in. -/
def Nested (d : Nat) (p : Phrase) (ts : List Token) (t : p.Tree) : Prop :=
  ∃ inner, d = inner + 1 ∧ Derives true inner p ts t

/-- Every statement that a parser reads is of the given kind, and if it is dangling then no `else`
follows that it could have taken. -/
def ReadsStatement (p : Parser (Stmt Unit)) (D : Bool → List Token → Stmt Unit → Prop) : Prop :=
  ∀ ts s rest, p.Reads ts s rest → ∃ used k, ts = used ++ rest ∧ D k used s ∧
    (k = true → startsWith (.keyword .else_) rest = false)

/-- What the parsers of a level read are phrases one level further in. -/
structure Level.Sound (inner : Level) (d : Nat) : Prop where
  expression : inner.expression.ReadsOnly (Nested d (.expression .assignment))
  operand : inner.operand.ReadsOnly (Nested d (.expression .operand))
  statement : ReadsStatement inner.statement fun k => Nested d (.statement k)
  block : inner.block.ReadsOnly fun ts body => ∃ us l, ts = us ++ [sym .rightBrace l] ∧
    Nested d .declarations us body

/-! ## Expressions -/

/-- The parser of a level of expressions. -/
def Precedence.parser (inner : Level) : Precedence → Parser (Expr Unit)
  | assignment => Grammar.expression inner
  | disjunction => Grammar.disjunction inner
  | conjunction => Grammar.conjunction inner
  | equality => Grammar.equality inner
  | comparison => Grammar.comparison inner
  | sum => Grammar.sum inner
  | product => Grammar.product inner
  | operand => Grammar.operand inner
  | call => Grammar.call inner
  | primary => Grammar.primary inner

/-- Whether a level has operators between operands. -/
def Precedence.joins : Precedence → Bool
  | disjunction | conjunction | equality | comparison | sum | product => true
  | assignment | operand | call | primary => false

/-- What goes on after an operand of a level: an operator and an operand of the next tighter level. -/
def Precedence.afterOperand (inner : Level) (p : Precedence) (left : Expr Unit) (t : Token) :
    Option (Parser (Expr Unit)) :=
  (p.join? t).map fun f => f left <$> p.tighter.parser inner

/-- An operator of a level goes on with the operand after it, which is of the next tighter level. -/
theorem Precedence.afterOperand_of_join? {p : Precedence} {t : Token}
    {f : Expr Unit → Expr Unit → Expr Unit} (h : p.join? t = some f) (inner : Level) (left : Expr Unit) :
    p.afterOperand inner left t = some (f left <$> p.tighter.parser inner) := by
  unfold Precedence.afterOperand
  rw [h]
  rfl

/-- A level of operators reads an operand of the next tighter level, and more of them as long as its
operators follow. -/
theorem parser_eq_of_joins (inner : Level) {p : Precedence} (h : p.joins = true) :
    p.parser inner = p.tighter.parser inner >>= extend (p.afterOperand inner) := by
  have hnext : ∀ {β : Type} (operator : Token → Option β)
      (join : β → Token → Expr Unit → Expr Unit → Expr Unit),
      (∀ lexeme line, p.join? ⟨lexeme, line⟩ =
        (operator ⟨lexeme, line⟩).map fun op => join op ⟨lexeme, line⟩) →
      chain operator join (p.tighter.parser inner) =
        p.tighter.parser inner >>= extend (p.afterOperand inner) := by
    intro β operator join hjoin
    have : (fun left t => (operator t).map fun op => join op t left <$> p.tighter.parser inner) =
        p.afterOperand inner := by
      funext left t
      unfold Precedence.afterOperand
      rw [hjoin, Option.map_map]
      rfl
    unfold chain
    rw [this]
  -- At each level the operators of the parser are those of the grammar.
  cases p <;> cases h
  all_goals
    refine hnext _ _ fun lexeme line => ?_
    cases lexeme with
    | symbol s => cases s <;> rfl
    | keyword k => cases k <;> rfl
    | identifier | number | string => rfl

/-- Items with commas between them are arguments if they are expressions. -/
theorem nested_arguments {d : Nat} {ts : List Token} {es : List (Expr Unit)}
    (h : Separated (Nested d (.expression .assignment)) ts es) : Nested d .arguments ts es := by
  induction h with
  | one h =>
    obtain ⟨d', rfl, h⟩ := h
    exact ⟨d', rfl, .lastArgument h⟩
  | more h later ih =>
    obtain ⟨d', rfl, h⟩ := h
    obtain ⟨d'', hd, later⟩ := ih
    injection hd with hd
    subst hd
    exact ⟨d', rfl, .argument h later⟩

section

variable {inner : Level} {d : Nat} (hi : inner.Sound d)
include hi

/-- What is read as a routine is one. -/
theorem routine_readsOnly (name : String) :
    (routine inner name).ReadsOnly (Derives true d .routine) := by
  intro ts r rest h
  -- One step at a time, from the opening parenthesis to the closing brace.
  unfold routine at h
  obtain ⟨l₁, ts₁, rfl, hr₁⟩ := reads_symbol_bind.1 h
  obtain ⟨ns, ts₂, hns, hr₂⟩ := reads_bind.1 hr₁
  obtain ⟨params, rfl, hparams⟩ :=
    ((readsOnly_name _).commaSeparated _).unlessNext _ _ _ _ _ hns
  have hparams : Parameters params ns := by
    rcases hparams with ⟨rfl, rfl⟩ | ⟨hsep, hcount⟩
    · exact .none
    · exact .some hsep hcount
  obtain ⟨l₂, ts₃, rfl, hr₃⟩ := reads_symbol_bind.1 hr₂
  obtain ⟨l₃, ts₄, rfl, hr₄⟩ := reads_symbol_bind.1 hr₃
  obtain ⟨body, ts₅, hbody, hpure⟩ := reads_bind.1 hr₄
  obtain ⟨rfl, rfl⟩ := reads_pure.1 hpure
  obtain ⟨used, rfl, us, l₄, rfl, d', rfl, hus⟩ := hi.block _ _ _ hbody
  exact ⟨sym .leftParen l₁ :: params ++ sym .rightParen l₂ :: sym .leftBrace l₃ :: us ++
    [sym .rightBrace l₄], by simp, .routine hparams hus⟩

/-- What stands alone begins with its own token. -/
theorem primary_readsOnly : (primary inner).ReadsOnly (Derives true d (.expression .primary)) := by
  intro ts e rest h
  unfold primary at h
  rcases h.select_cases with ⟨t, us, p, rfl, hc, hp⟩ | ⟨-, hp⟩
  · obtain ⟨lexeme, line⟩ := t
    simp only at hc
    split at hc <;> cases hc
    case h_8 =>
      -- A grouping.
      obtain ⟨e', ts₁, he, hr⟩ := reads_bind.1 hp
      obtain ⟨l', ts₂, rfl, hpure⟩ := reads_symbol_bind.1 hr
      obtain ⟨rfl, rfl⟩ := reads_pure.1 hpure
      obtain ⟨used, rfl, d', rfl, hused⟩ := hi.expression _ _ _ he
      exact ⟨sym .leftParen line :: used ++ [sym .rightParen l'], by simp, .grouping hused⟩
    case h_9 =>
      -- An anonymous function.
      obtain ⟨used, rfl, r, rfl, hused⟩ := (routine_readsOnly hi _).map _ _ _ _ hp
      exact ⟨_, rfl, .lambda hused⟩
    -- All other tokens are expressions by themselves.
    all_goals
      obtain ⟨rfl, rfl⟩ := reads_pure.1 hp
      exact ⟨[⟨_, line⟩], rfl, .atom rfl⟩
  · exact absurd hp not_reads_fail

/-- The arguments of a call go on with its callee. -/
theorem callArguments_readsOnly {used : List Token} {callee : Expr Unit} {l : Int}
    (hc : Derives true d (.expression .call) used callee) :
    (callArguments inner callee).ReadsOnly fun us e =>
      Derives true d (.expression .call) (used ++ sym .leftParen l :: us) e := by
  intro ts e rest h
  unfold callArguments at h
  obtain ⟨as, ts₁, has, hr⟩ := reads_bind.1 h
  obtain ⟨line, ts₂, rfl, hpure⟩ := reads_symbol_bind.1 hr
  obtain ⟨rfl, rfl⟩ := reads_pure.1 hpure
  obtain ⟨us, rfl, hus⟩ := (hi.expression.commaSeparated _).unlessNext _ _ _ _ _ has
  refine ⟨us ++ [sym .rightParen line], by simp, ?_⟩
  -- The call has no arguments, or the arguments are expressions one level in.
  rcases hus with ⟨rfl, rfl⟩ | ⟨hsep, hcount⟩
  · exact .callNothing hc
  · obtain ⟨d', rfl, hargs⟩ := nested_arguments hsep
    have hcall : Derives true (d' + 1) (.expression .call)
        (used ++ sym .leftParen l :: us ++ [sym .rightParen line]) (.call callee line as) :=
      .call hc hargs hcount
    rwa [List.append_assoc] at hcall

/-- What is read as a call, or as what may be called, is one. -/
theorem call_readsOnly : (call inner).ReadsOnly (Derives true d (.expression .call)) := by
  intro ts e rest h
  unfold call at h
  obtain ⟨callee, mid, hcallee, hloop⟩ := reads_bind.1 h
  obtain ⟨used, rfl, hused⟩ := primary_readsOnly hi _ _ _ hcallee
  -- A round of the loop makes a longer call from the callee read so far.
  have hround : ∀ used e t p, Derives true d (.expression .call) used e →
      afterCallee inner e t = some p →
      p.ReadsOnly fun us e' => Derives true d (.expression .call) (used ++ t :: us) e' := by
    intro used e t p he hp
    obtain ⟨lexeme, line⟩ := t
    unfold afterCallee at hp
    simp only at hp
    split at hp
    · injection hp with hp
      subst hp
      exact callArguments_readsOnly hi he
    · injection hp with hp
      subst hp
      intro ts e rest h
      obtain ⟨us, rfl, n, rfl, rfl⟩ := (readsOnly_name _).map _ _ _ _ h
      exact ⟨[ident n], rfl, .get he⟩
    · cases hp
  obtain ⟨more, rfl, hmore⟩ := (reads_extend.1 hloop).readsOnly hround used (.tighter hused)
  exact ⟨used ++ more, by simp, hmore⟩

/-- What is read as an operand is one. -/
theorem operand_readsOnly : (operand inner).ReadsOnly (Derives true d (.expression .operand)) := by
  intro ts e rest h
  unfold operand at h
  rcases h.select_cases with ⟨t, us, p, rfl, hc, hp⟩ | ⟨-, hp⟩
  -- The two tokens that are chosen are the prefix operators.
  · obtain ⟨op, hop, hmap⟩ : ∃ op, prefixOp? t = some op ∧
        p = Expr.unary op t.line <$> inner.operand := by
      obtain ⟨lexeme, line⟩ := t
      simp only at hc
      split at hc <;> cases hc
      · exact ⟨.not, rfl, rfl⟩
      · exact ⟨.negate, rfl, rfl⟩
    subst hmap
    obtain ⟨used, rfl, e', rfl, d', rfl, he⟩ := hi.operand.map _ _ _ _ hp
    exact ⟨t :: used, rfl, .unary hop he⟩
  · obtain ⟨used, rfl, hused⟩ := call_readsOnly hi _ _ _ hp
    exact ⟨used, rfl, .tighter hused⟩

omit hi in
/-- A level of operators reads operands of the next tighter level and joins them from the left. -/
theorem joins_readsOnly {p : Precedence} (h : p.joins = true)
    (hq : (p.tighter.parser inner).ReadsOnly (Derives true d (.expression p.tighter))) :
    (p.parser inner).ReadsOnly (Derives true d (.expression p)) := by
  intro ts e rest hread
  rw [parser_eq_of_joins inner h] at hread
  obtain ⟨first, mid, hfirst, hloop⟩ := reads_bind.1 hread
  obtain ⟨used, rfl, hused⟩ := hq _ _ _ hfirst
  -- One round reads an operator and a tighter expression, which are joined to what was read.
  have hround : ∀ used left t r, Derives true d (.expression p) used left →
      p.afterOperand inner left t = some r →
      r.ReadsOnly fun us e => Derives true d (.expression p) (used ++ t :: us) e := by
    intro used left t r hleft hr
    obtain ⟨f, hf, rfl⟩ := Option.map_eq_some_iff.1 hr
    intro ts e rest hread
    obtain ⟨us, rfl, right, rfl, hright⟩ := hq.map _ _ _ _ hread
    exact ⟨us, rfl, .join hleft hf hright⟩
  obtain ⟨more, rfl, hmore⟩ := (reads_extend.1 hloop).readsOnly hround used (.tighter hused)
  exact ⟨used ++ more, by simp, hmore⟩

/-- What is read with operators between operands is such an expression. -/
theorem disjunction_readsOnly :
    (disjunction inner).ReadsOnly (Derives true d (.expression .disjunction)) := by
  have hproduct := joins_readsOnly (p := .product) rfl (operand_readsOnly hi)
  have hsum := joins_readsOnly (p := .sum) rfl hproduct
  have hcomparison := joins_readsOnly (p := .comparison) rfl hsum
  have hequality := joins_readsOnly (p := .equality) rfl hcomparison
  have hconjunction := joins_readsOnly (p := .conjunction) rfl hequality
  exact joins_readsOnly (p := .disjunction) rfl hconjunction

/-- A target that a value is assigned to is a name, or a property of something that is called. -/
theorem expression_readsOnly :
    (expression inner).ReadsOnly (Derives true d (.expression .assignment)) := by
  intro ts e rest h
  unfold expression at h
  obtain ⟨target, mid, htarget, hr⟩ := reads_bind.1 h
  obtain ⟨used, rfl, hused⟩ := disjunction_readsOnly hi _ _ _ htarget
  rcases hr.select_cases with ⟨t, us, p, rfl, hc, hp⟩ | ⟨-, hp⟩
  · obtain ⟨lexeme, line⟩ := t
    simp only at hc
    split at hc <;> cases hc
    next hequal =>
      subst hequal
      obtain ⟨value, ts₁, hvalue, hassign⟩ := reads_bind.1 hp
      obtain ⟨vs, rfl, d', rfl, hvs⟩ := hi.expression _ _ _ hvalue
      -- Only a name and a property are targets, and the tokens before the equals sign show which.
      have hshows := hused.showsTarget
      unfold assignTo at hassign
      split at hassign
      · obtain ⟨rfl, rfl⟩ := reads_pure.1 hassign
        simp only [ShowsTarget] at hshows
        subst hshows
        exact ⟨_, rfl, .assign hvs⟩
      · obtain ⟨rfl, rfl⟩ := reads_pure.1 hassign
        obtain ⟨os, l, rfl, ho⟩ := hshows
        exact ⟨os ++ sym .dot l :: ident _ :: sym .equal line :: vs, by simp, .set ho hvs⟩
      · exact absurd hassign not_reads_failAt
  · obtain ⟨rfl, rfl⟩ := reads_pure.1 hp
    exact ⟨used, rfl, .tighter hused⟩

/-- What is read as a clause is one. -/
theorem clause_readsOnly (closing : Symbol) :
    (clause inner closing).ReadsOnly (Derives true d .clause) := by
  intro ts o rest h
  unfold clause at h
  obtain ⟨used, rfl, hused⟩ := ((expression_readsOnly hi).map _).unlessNext _ _ _ _ _ h
  rcases hused with ⟨rfl, rfl⟩ | ⟨e, rfl, he⟩
  · exact ⟨[], rfl, .noClause⟩
  · exact ⟨used, rfl, .clause he⟩

/-! ## Statements -/

/-- A variable declaration is read after its keyword. -/
theorem varDeclaration_readsOnly (line : Int) : (varDeclaration inner).ReadsOnly fun ts s =>
    Derives true d .varDeclaration (word .var line :: ts) s := by
  intro ts s rest h
  unfold varDeclaration at h
  obtain ⟨n, ts₁, rfl, hr₁⟩ := reads_name_bind.1 h
  obtain ⟨o, ts₂, ho, hr₂⟩ := reads_bind.1 hr₁
  obtain ⟨l, ts₃, rfl, hpure⟩ := reads_symbol_bind.1 hr₂
  obtain ⟨rfl, rfl⟩ := reads_pure.1 hpure
  -- There is a value after an equals sign, and none otherwise.
  unfold initialValue at ho
  rcases ho.select_cases with ⟨t, us, p, rfl, hc, hp⟩ | ⟨-, hp⟩
  · obtain ⟨lexeme, line⟩ := t
    simp only at hc
    split at hc <;> cases hc
    next hequal =>
      subst hequal
      obtain ⟨used, rfl, e, rfl, he⟩ := (expression_readsOnly hi).map _ _ _ _ hp
      exact ⟨ident n :: sym .equal line :: used ++ [sym .semicolon l], by simp, .var he⟩
  · obtain ⟨rfl, rfl⟩ := reads_pure.1 hp
    exact ⟨[ident n, sym .semicolon l], rfl, .unset⟩

/-- What is read as an expression statement is an expression with a semicolon after it. -/
theorem expressionStatement_readsOnly : (expressionStatement inner).ReadsOnly fun ts s =>
    ∃ us l e, ts = us ++ [sym .semicolon l] ∧ s = .expression e ∧
      Derives true d (.expression .assignment) us e := by
  intro ts s rest h
  unfold expressionStatement at h
  obtain ⟨e, ts₁, he, hr⟩ := reads_bind.1 h
  obtain ⟨l, ts₂, rfl, hpure⟩ := reads_symbol_bind.1 hr
  obtain ⟨rfl, rfl⟩ := reads_pure.1 hpure
  obtain ⟨used, rfl, hused⟩ := expression_readsOnly hi _ _ _ he
  exact ⟨used ++ [sym .semicolon l], by simp, used, l, e, rfl, rfl, hused⟩

/-- What is read after the keyword of a print statement makes one. -/
theorem printStatement_readsOnly (line : Int) : (printStatement inner).ReadsOnly fun ts s =>
    Derives true d (.statement false) (word .print line :: ts) s := by
  intro ts s rest h
  unfold printStatement at h
  obtain ⟨e, ts₁, he, hr⟩ := reads_bind.1 h
  obtain ⟨l, ts₂, rfl, hpure⟩ := reads_symbol_bind.1 hr
  obtain ⟨rfl, rfl⟩ := reads_pure.1 hpure
  obtain ⟨used, rfl, hused⟩ := expression_readsOnly hi _ _ _ he
  exact ⟨used ++ [sym .semicolon l], by simp, .print hused⟩

/-- What is read after the keyword of a return statement makes one. -/
theorem returnStatement_readsOnly (line : Int) : (returnStatement inner line).ReadsOnly fun ts s =>
    Derives true d (.statement false) (word .return_ line :: ts) s := by
  intro ts s rest h
  unfold returnStatement at h
  obtain ⟨v, ts₁, hv, hr⟩ := reads_bind.1 h
  obtain ⟨l, ts₂, rfl, hpure⟩ := reads_symbol_bind.1 hr
  obtain ⟨rfl, rfl⟩ := reads_pure.1 hpure
  obtain ⟨used, rfl, hused⟩ := clause_readsOnly hi _ _ _ _ hv
  exact ⟨used ++ [sym .semicolon l], by simp, .return hused⟩

/-- What is read after the keyword of a conditional makes one. It is dangling if what it ends with is, or if
it has no `else`. -/
theorem ifStatement_reads (line : Int) : ReadsStatement (ifStatement inner) fun k ts =>
    Derives true d (.statement k) (word .if_ line :: ts) := by
  intro ts s rest h
  unfold ifStatement at h
  obtain ⟨l₁, ts₁, rfl, hr₁⟩ := reads_symbol_bind.1 h
  obtain ⟨c, ts₂, hc, hr₂⟩ := reads_bind.1 hr₁
  obtain ⟨cs, rfl, hcs⟩ := expression_readsOnly hi _ _ _ hc
  obtain ⟨l₂, ts₃, rfl, hr₃⟩ := reads_symbol_bind.1 hr₂
  obtain ⟨s₁, ts₄, hs₁, hr₄⟩ := reads_bind.1 hr₃
  obtain ⟨us, k, rfl, ⟨d', rfl, hus⟩, helse⟩ := hi.statement _ _ _ hs₁
  obtain ⟨o, ts₅, ho, hpure⟩ := reads_bind.1 hr₄
  obtain ⟨rfl, rfl⟩ := reads_pure.1 hpure
  unfold elseBranch at ho
  rcases ho.select_cases with ⟨t, vs, p, rfl, hchoose, hp⟩ | ⟨hnone, hp⟩
  · obtain ⟨lexeme, l₃⟩ := t
    simp only at hchoose
    split at hchoose <;> cases hchoose
    next hkeyword =>
      subst hkeyword
      obtain ⟨s₂, hs₂, rfl⟩ := reads_map.1 hp
      obtain ⟨ws, k', rfl, ⟨d'', hd, hws⟩, helse'⟩ := hi.statement _ _ _ hs₂
      injection hd with hd
      subst hd
      -- The first branch was left before an `else`, so it ends with no open conditional.
      have hclosed : true = true → k = false := by
        intro _
        cases k with
        | false => rfl
        | true => exact absurd (helse rfl) (by simp [startsWith])
      exact ⟨sym .leftParen l₁ :: cs ++ sym .rightParen l₂ :: us ++ word .else_ l₃ :: ws, k', by simp,
        .ifElse hcs hus hclosed hws, helse'⟩
  · obtain ⟨rfl, rfl⟩ := reads_pure.1 hp
    -- An `else` that followed would have been taken.
    have hopen : startsWith (.keyword .else_) rest = false := by
      cases rest with
      | nil => rfl
      | cons t rest =>
        refine decide_eq_false fun helse => ?_
        have hchoose := hnone t rfl
        rw [if_pos helse] at hchoose
        cases hchoose
    exact ⟨sym .leftParen l₁ :: cs ++ sym .rightParen l₂ :: us, true, by simp, .ifThen hcs hus,
      fun _ => hopen⟩

/-- What is read after the keyword of a `while` loop makes one. It is dangling if its body is. -/
theorem whileStatement_reads (line : Int) : ReadsStatement (whileStatement inner) fun k ts =>
    Derives true d (.statement k) (word .while_ line :: ts) := by
  intro ts s rest h
  unfold whileStatement at h
  obtain ⟨l₁, ts₁, rfl, hr₁⟩ := reads_symbol_bind.1 h
  obtain ⟨c, ts₂, hc, hr₂⟩ := reads_bind.1 hr₁
  obtain ⟨cs, rfl, hcs⟩ := expression_readsOnly hi _ _ _ hc
  obtain ⟨l₂, ts₃, rfl, hr₃⟩ := reads_symbol_bind.1 hr₂
  obtain ⟨body, ts₄, hbody, hpure⟩ := reads_bind.1 hr₃
  obtain ⟨rfl, rfl⟩ := reads_pure.1 hpure
  obtain ⟨us, k, rfl, ⟨d', rfl, hus⟩, helse⟩ := hi.statement _ _ _ hbody
  exact ⟨sym .leftParen l₁ :: cs ++ sym .rightParen l₂ :: us, k, by simp, .while hcs hus, helse⟩

/-- What stands before the condition of a `for` loop is read up to its semicolon. -/
theorem loopStart_readsOnly : (loopStart inner).ReadsOnly (Derives true d .loopStart) := by
  intro ts o rest h
  unfold loopStart at h
  rcases h.select_cases with ⟨t, us, p, rfl, hchoose, hp⟩ | ⟨-, hp⟩
  · obtain ⟨lexeme, line⟩ := t
    simp only at hchoose
    split at hchoose <;> cases hchoose
    -- The loop begins with a semicolon, with a variable or with an expression.
    · obtain ⟨rfl, rfl⟩ := reads_pure.1 hp
      exact ⟨_, rfl, .noStart (l := line)⟩
    · obtain ⟨used, rfl, s, rfl, hs⟩ := (varDeclaration_readsOnly hi line).map _ _ _ _ hp
      exact ⟨_, rfl, .varStart hs⟩
  · obtain ⟨used, rfl, s, rfl, us, l, e, rfl, rfl, he⟩ :=
      (expressionStatement_readsOnly hi).map _ _ _ _ hp
    exact ⟨_, rfl, .expressionStart he⟩

/-- What is read after the keyword of a `for` loop makes one. It is dangling if its body is. -/
theorem forStatement_reads (line : Int) : ReadsStatement (forStatement inner) fun k ts =>
    Derives true d (.statement k) (word .for_ line :: ts) := by
  intro ts s rest h
  unfold forStatement at h
  -- The tokens one by one, as the parser asks for them.
  obtain ⟨l₁, ts₁, rfl, hr₁⟩ := reads_symbol_bind.1 h
  obtain ⟨i, ts₂, hstart, hr₂⟩ := reads_bind.1 hr₁
  obtain ⟨is, rfl, his⟩ := loopStart_readsOnly hi _ _ _ hstart
  obtain ⟨c, ts₃, hc, hr₃⟩ := reads_bind.1 hr₂
  obtain ⟨cs, rfl, hcs⟩ := clause_readsOnly hi _ _ _ _ hc
  obtain ⟨l₂, ts₄, rfl, hr₄⟩ := reads_symbol_bind.1 hr₃
  obtain ⟨n, ts₅, hn, hr₅⟩ := reads_bind.1 hr₄
  obtain ⟨ns, rfl, hns⟩ := clause_readsOnly hi _ _ _ _ hn
  obtain ⟨l₃, ts₆, rfl, hr₆⟩ := reads_symbol_bind.1 hr₅
  obtain ⟨body, ts₇, hbody, hpure⟩ := reads_bind.1 hr₆
  obtain ⟨rfl, rfl⟩ := reads_pure.1 hpure
  obtain ⟨us, k, rfl, ⟨d', rfl, hus⟩, helse⟩ := hi.statement _ _ _ hbody
  exact ⟨sym .leftParen l₁ :: is ++ cs ++ sym .semicolon l₂ :: ns ++ sym .rightParen l₃ :: us, k,
    by simp, .for his hcs hns hus, helse⟩

/-- Everything that is read after a keyword or a brace is a statement, and so is everything else that
is read where neither stands. -/
theorem statement_reads : ReadsStatement (statement inner) fun k => Derives true d (.statement k) := by
  intro ts s rest h
  unfold statement at h
  rcases h.select_cases with ⟨t, us, p, rfl, hchoose, hp⟩ | ⟨-, hp⟩
  · obtain ⟨lexeme, line⟩ := t
    simp only at hchoose
    -- One case for each keyword that begins a statement, and one for a block.
    split at hchoose <;> cases hchoose
    · obtain ⟨used, rfl, hused⟩ := printStatement_readsOnly hi line _ _ _ hp
      exact ⟨_, false, rfl, hused, nofun⟩
    · obtain ⟨used, rfl, body, rfl, vs, l, rfl, d', rfl, hbody⟩ := hi.block.map _ _ _ _ hp
      exact ⟨sym .leftBrace line :: vs ++ [sym .rightBrace l], false, rfl, .block hbody, nofun⟩
    · obtain ⟨used, k, rfl, hused, helse⟩ := ifStatement_reads hi line _ _ _ hp
      exact ⟨_, k, rfl, hused, helse⟩
    · obtain ⟨used, k, rfl, hused, helse⟩ := whileStatement_reads hi line _ _ _ hp
      exact ⟨_, k, rfl, hused, helse⟩
    · obtain ⟨used, k, rfl, hused, helse⟩ := forStatement_reads hi line _ _ _ hp
      exact ⟨_, k, rfl, hused, helse⟩
    · obtain ⟨used, rfl, hused⟩ := returnStatement_readsOnly hi line _ _ _ hp
      exact ⟨_, false, rfl, hused, nofun⟩
  -- Anything else is an expression.
  · obtain ⟨used, rfl, us, l, e, rfl, rfl, he⟩ := expressionStatement_readsOnly hi _ _ _ hp
    exact ⟨_, false, rfl, .expression he, nofun⟩

/-! ## Declarations -/

/-- What is read as a routine with a name is a name with a routine after it. -/
theorem namedRoutine_readsOnly (missingName : SyntaxFault) :
    (namedRoutine inner missingName).ReadsOnly fun ts m =>
      ∃ us, ts = ident m.1 :: us ∧ Derives true d .routine us m.2 := by
  intro ts m rest h
  unfold namedRoutine at h
  obtain ⟨n, ts₁, rfl, hr₁⟩ := reads_name_bind.1 h
  obtain ⟨r, ts₂, hr, hpure⟩ := reads_bind.1 hr₁
  obtain ⟨rfl, rfl⟩ := reads_pure.1 hpure
  obtain ⟨used, rfl, hused⟩ := routine_readsOnly hi _ _ _ _ hr
  exact ⟨_, rfl, used, rfl, hused⟩

/-- What is collected as methods are methods. -/
theorem methods_readsOnly {stop : Token → Bool} {missingName : SyntaxFault} {ts rest : List Token}
    {ms : List (Name × Routine Unit)} (h : Collects stop (namedRoutine inner missingName) ts ms rest) :
    ∃ used, ts = used ++ rest ∧ Derives true d .methods used ms := by
  induction h with
  | stop => exact ⟨[], rfl, .noMethod⟩
  | round h hm later ih =>
    obtain ⟨used, hts, us, rfl, hus⟩ := namedRoutine_readsOnly hi _ _ _ _ hm
    obtain ⟨vs, rfl, hvs⟩ := ih
    refine ⟨_, ?_, .method hus hvs⟩
    rw [hts]
    simp

/-- What is read after the keyword of a class makes one. -/
theorem classDeclaration_readsOnly (line : Int) : (classDeclaration inner).ReadsOnly fun ts s =>
    Derives true d (.declaration false) (word .class_ line :: ts) s := by
  intro ts s rest h
  unfold classDeclaration at h
  obtain ⟨n, ts₁, rfl, hr₁⟩ := reads_name_bind.1 h
  obtain ⟨l₁, ts₂, rfl, hr₂⟩ := reads_symbol_bind.1 hr₁
  obtain ⟨ms, ts₃, hms, hr₃⟩ := reads_bind.1 hr₂
  obtain ⟨used, rfl, hused⟩ := methods_readsOnly hi (reads_repeatUntil.1 hms)
  obtain ⟨l₂, ts₄, rfl, hpure⟩ := reads_symbol_bind.1 hr₃
  obtain ⟨rfl, rfl⟩ := reads_pure.1 hpure
  exact ⟨ident n :: sym .leftBrace l₁ :: used ++ [sym .rightBrace l₂], by simp, .class hused⟩

/-- What is read as a declaration is one. -/
theorem strictDeclaration_reads : ReadsStatement (strictDeclaration inner) fun k =>
    Derives true d (.declaration k) := by
  intro ts s rest h
  unfold strictDeclaration at h
  obtain ⟨us, ts₁, hlook, hr⟩ := reads_bind.1 h
  obtain ⟨rfl, rfl⟩ := reads_lookahead.1 hlook
  rcases hr.select_cases with ⟨t, us, p, rfl, hchoose, hp⟩ | ⟨-, hp⟩
  · obtain ⟨lexeme, line⟩ := t
    simp only at hchoose
    split at hchoose
    · cases hchoose
      obtain ⟨used, rfl, hused⟩ := classDeclaration_readsOnly hi line _ _ _ hp
      exact ⟨_, false, rfl, hused, nofun⟩
    · -- The keyword begins a declaration only if a name follows.
      split at hchoose <;> cases hchoose
      obtain ⟨used, rfl, ⟨n, r⟩, rfl, vs, rfl, hvs⟩ := (namedRoutine_readsOnly hi _).map _ _ _ _ hp
      exact ⟨_, false, rfl, .function (l := line) hvs, nofun⟩
    · cases hchoose
      obtain ⟨used, rfl, hused⟩ := varDeclaration_readsOnly hi line _ _ _ hp
      exact ⟨_, false, rfl, .varDeclaration hused, nofun⟩
    · cases hchoose
  · obtain ⟨used, k, rfl, hused, helse⟩ := statement_reads hi _ _ _ hp
    exact ⟨used, k, rfl, .statement hused, helse⟩

/-- What is read as declarations are declarations. -/
theorem declarations_readsOnly {n : Nat} (hr : inner.Halts n) (stop : Token → Bool) :
    (declarations inner stop).ReadsOnly (Derives true d .declarations) := by
  intro ts ss rest h
  unfold declarations at h
  obtain ⟨os, hos, rfl⟩ := reads_map.1 h
  replace hos := reads_repeatUntil.1 hos
  clear h
  -- By induction on the rounds: none of them was recovered from, so each has read a declaration.
  induction hos with
  | stop => exact ⟨[], rfl, .noDeclaration⟩
  | round hstop ho later ih =>
    obtain ⟨s, rfl, hs⟩ := (reads_recovered (halts_strictDeclaration hr)).1 ho
    obtain ⟨used, k, hts, hused, -⟩ := strictDeclaration_reads hi _ _ _ hs
    obtain ⟨us, rfl, hus⟩ := ih
    refine ⟨used ++ us, ?_, .declarations hused hus⟩
    rw [hts, List.append_assoc]

/-- What is read as the inside of a block are declarations with a brace after them. -/
theorem block_readsOnly {n : Nat} (hr : inner.Halts n) : (block inner).ReadsOnly fun ts body =>
    ∃ us l, ts = us ++ [sym .rightBrace l] ∧ Derives true d .declarations us body := by
  intro ts body rest h
  unfold block at h
  obtain ⟨ss, ts₁, hss, hr₁⟩ := reads_bind.1 h
  obtain ⟨us, rfl, hus⟩ := declarations_readsOnly hi hr _ _ _ _ hss
  obtain ⟨l, ts₂, rfl, hpure⟩ := reads_symbol_bind.1 hr₁
  obtain ⟨rfl, rfl⟩ := reads_pure.1 hpure
  exact ⟨us ++ [sym .rightBrace l], by simp, us, l, rfl, hus⟩

end

/-! ## Levels -/

/-- What the parsers of a level read are phrases that are nested at most as deeply as it allows. -/
theorem Level.sound_ofDepth (depth : Nat) : (Level.ofDepth depth).Sound depth := by
  induction depth with
  -- With no depth left every parser stops, so it reads nothing.
  | zero =>
    refine ⟨?_, ?_, ?_, ?_⟩
    · exact fun _ _ _ h => absurd h not_reads_tooDeep
    · exact fun _ _ _ h => absurd h not_reads_tooDeep
    · exact fun _ _ _ h => absurd h not_reads_tooDeep
    · exact fun _ _ _ h => absurd h not_reads_tooDeep
  -- Each parser of a level calls those of the level below.
  | succ depth ih =>
    refine ⟨fun ts e rest h => ?_, fun ts e rest h => ?_, fun ts s rest h => ?_,
      fun ts body rest h => ?_⟩
    · obtain ⟨used, hts, hused⟩ := expression_readsOnly ih ts e rest h
      exact ⟨used, hts, depth, rfl, hused⟩
    · obtain ⟨used, hts, hused⟩ := operand_readsOnly ih ts e rest h
      exact ⟨used, hts, depth, rfl, hused⟩
    · obtain ⟨used, k, hts, hused, helse⟩ := statement_reads ih ts s rest h
      exact ⟨used, k, hts, ⟨depth, rfl, hused⟩, helse⟩
    · obtain ⟨used, hts, us, l, hus, hbody⟩ :=
        block_readsOnly ih (Level.halts_ofDepth depth) ts body rest h
      exact ⟨used, hts, us, l, hus, depth, rfl, hbody⟩

/-- Tokens that are read to their end without a report are a program, and what is given back is its
tree. -/
theorem derives_of_reads {depth : Nat} {tokens : List Token} {program : List (Stmt Unit)}
    (h : parseProgram depth tokens = ⟨.ok program, [], []⟩) :
    Derives true depth .declarations tokens program := by
  obtain ⟨used, rfl, hused⟩ := declarations_readsOnly (Level.sound_ofDepth depth)
    (Level.halts_ofDepth depth) _ _ _ _ h
  rwa [List.append_nil]

end Treewalk.Grammar
