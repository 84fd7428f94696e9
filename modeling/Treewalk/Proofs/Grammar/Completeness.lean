import Treewalk.Proofs.Grammar.Lookahead
import Treewalk.Proofs.Grammar.Soundness

/-!
# Every phrase is read

The parsers of the grammar read every phrase of `Derivation.lean` and give back its tree
(`reads_of_derives`), if what follows the phrase cannot belong to it: no operator that would take the
end of the phrase for its operand, and no `else` after an `if` that has none.

A level of operators is read by a loop, and its trees grow from the left. So what is shown of such a
level is that whatever its loop does from the tree of a phrase on, the parser of the level does from the
tokens of the phrase on (`Precedence.Loop`). This gives each rule of the grammar its own step, and
`Derives.read` is the induction that puts the steps together.
-/

namespace Treewalk.Parser

open Treewalk.Grammar (Separated sym)

variable {α : Type}

section

variable {item : Parser α} {Item : List Token → α → Prop} (tooMany : SyntaxFault)
  {Ends : List Token → Prop} (hitem : ∀ ts a rest, Item ts a → Ends rest → item.Reads (ts ++ rest) a rest)
include hitem

/-- Going on after a comma takes the next item into the list. -/
theorem run_extend_comma {ts rest : List Token} {a : α} {items : Array α} (ha : Item ts a)
    (hends : Ends rest) (hsize : items.size < maxArguments) (l : Int) :
    (extend (afterComma item tooMany) items).run (sym .comma l :: (ts ++ rest)) =
      (extend (afterComma item tooMany) (items.push a)).run rest := by
  have hanother : (anotherItem item tooMany items).Reads (ts ++ rest) (items.push a) rest := by
    refine reads_bind.2 ⟨(), ts ++ rest, reads_noteIf.2 ⟨by omega, rfl⟩, ?_⟩
    exact reads_bind.2 ⟨a, rest, hitem _ _ _ ha hends, reads_pure.2 ⟨rfl, rfl⟩⟩
  rw [run_extend_some (if_pos rfl), run_bind_reads hanother]

/-- Items with commas between them are read one after the other, if there are not too many. -/
theorem run_extend_separated (hcomma : ∀ l ts, Ends (sym .comma l :: ts)) {ts rest : List Token}
    {as : List α} (h : Separated Item ts as) (hends : Ends rest) :
    ∀ (l : Int) (items : Array α), items.size + as.length ≤ maxArguments →
      (extend (afterComma item tooMany) items).run (sym .comma l :: (ts ++ rest)) =
        (extend (afterComma item tooMany) (items ++ as.toArray)).run rest := by
  -- By induction on the items: a comma and an item take one round.
  induction h with
  | one ha =>
    intro l items hsize
    rw [run_extend_comma tooMany hitem ha hends hsize]
    simp
  | @more ts us a as l' ha later ih =>
    intro l items hsize
    rw [List.length_cons] at hsize
    rw [List.append_assoc, List.cons_append,
      run_extend_comma tooMany hitem ha (hcomma _ _) (by omega),
      ih l' (items.push a) (by rw [Array.size_push]; omega)]
    simp

/-- Where items with commas between them were read, more of them may follow. -/
theorem run_commaSeparated (hcomma : ∀ l ts, Ends (sym .comma l :: ts)) {ts rest : List Token}
    {as : List α} (h : Separated Item ts as) (count : as.length ≤ maxArguments) (hends : Ends rest) :
    (commaSeparated item tooMany).run (ts ++ rest) =
      (extend (afterComma item tooMany) as.toArray >>= fun items => pure items.toList).run rest := by
  cases h with
  | one ha => exact run_bind_reads (hitem _ _ _ ha hends)
  | @more ts us a as l ha later =>
    rw [List.append_assoc, List.cons_append]
    refine (run_bind_reads (hitem _ _ _ ha (hcomma _ _))).trans (run_bind_congr ?_ _)
    rw [run_extend_separated tooMany hitem hcomma later hends l #[a]
      (by simpa [Nat.add_comm] using count)]
    simp

/-- A list of items with commas between them is read up to what ends an item, unless a comma follows. -/
theorem reads_commaSeparated (hcomma : ∀ l ts, Ends (sym .comma l :: ts)) {ts rest : List Token}
    {as : List α} (h : Separated Item ts as) (count : as.length ≤ maxArguments) (hends : Ends rest)
    (hrest : startsWith (.symbol .comma) rest = false) :
    (commaSeparated item tooMany).Reads (ts ++ rest) as rest := by
  refine (run_commaSeparated tooMany hitem hcomma h count hends).trans ?_
  refine reads_bind.2 ⟨as.toArray, rest, reads_extend.2 (.stop fun t ht => if_neg fun hlexeme => ?_),
    reads_pure.2 ⟨by simp, rfl⟩⟩
  cases rest with
  | nil => cases ht
  | cons u rest =>
    cases ht
    exact absurd hrest (by simp [startsWith, hlexeme])

end

end Treewalk.Parser

namespace Treewalk.Grammar

open Treewalk.Parser

/-! ## What follows a phrase -/

/-- The place of a level among the levels, the loosest first. -/
def Precedence.rank : Precedence → Nat
  | assignment => 0
  | disjunction => 1
  | conjunction => 2
  | equality => 3
  | comparison => 4
  | sum => 5
  | product => 6
  | operand => 7
  | call => 8
  | primary => 9

/-- A tighter level comes no earlier in the order of levels. -/
theorem Precedence.rank_le_tighter (p : Precedence) : p.rank ≤ p.tighter.rank := by
  cases p <;> decide

/-- A level of operators between operands is looser than the next one. -/
theorem Precedence.rank_lt_tighter {p : Precedence} (h : p.joins = true) :
    p.rank < p.tighter.rank := by
  cases p <;> revert h <;> decide

/-- The level at which a token goes on with what stands before it. -/
def binds? (t : Token) : Option Precedence :=
  match t.lexeme with
  | .symbol .equal => some .assignment
  | .keyword .or_ => some .disjunction
  | .keyword .and_ => some .conjunction
  | .symbol .bangEqual | .symbol .equalEqual => some .equality
  | .symbol .greater | .symbol .greaterEqual | .symbol .less | .symbol .lessEqual => some .comparison
  | .symbol .minus | .symbol .plus => some .sum
  | .symbol .slash | .symbol .star => some .product
  | .symbol .leftParen | .symbol .dot => some .call
  | _ => none

/-- Only a level of operators between operands joins. -/
theorem joins_of_join? {p : Precedence} {t : Token} {f : Expr Unit → Expr Unit → Expr Unit}
    (h : p.join? t = some f) : p.joins = true := by
  cases p with
  | assignment | operand | call | primary => cases h
  | _ => rfl

/-- An operator binds on its own level. -/
theorem binds?_of_join? {p : Precedence} {t : Token} {f : Expr Unit → Expr Unit → Expr Unit}
    (h : p.join? t = some f) : binds? t = some p := by
  obtain ⟨lexeme, line⟩ := t
  unfold Precedence.join? at h
  simp only at h
  split at h <;> cases h <;> rfl

/-- An expression of a level ends before some tokens: the first of them does not go on with it. -/
def Stops (p : Precedence) (rest : List Token) : Prop :=
  ∀ t ∈ rest.head?, ∀ q, binds? t = some q → q.rank < p.rank

/-- What stops a level stops all tighter ones. -/
theorem Stops.of_le {p q : Precedence} {rest : List Token} (h : Stops p rest)
    (hle : p.rank ≤ q.rank) : Stops q rest :=
  fun t ht r hr => Nat.lt_of_lt_of_le (h t ht r hr) hle

/-- What stops a level stops the next tighter one. -/
theorem Stops.tighter {p : Precedence} {rest : List Token} (h : Stops p rest) :
    Stops p.tighter rest :=
  h.of_le p.rank_le_tighter

/-- Every expression ends before a token that goes on with none. -/
theorem stops_of_binds?_none {p : Precedence} {t : Token} {rest : List Token}
    (h : binds? t = none) : Stops p (t :: rest) := by
  intro u hu q hq
  cases hu
  rw [h] at hq
  cases hq

/-- What stands alone ends before a parenthesis or a dot that goes on with a call. -/
theorem stops_of_binds?_call {t : Token} {rest : List Token} (h : binds? t = some .call) :
    Stops .primary (t :: rest) := by
  intro u hu q hq
  cases hu
  rw [h] at hq
  cases hq
  decide

/-- An operand ends before an operator of its level. -/
theorem stops_of_join? {p : Precedence} {t : Token} {f : Expr Unit → Expr Unit → Expr Unit}
    (hop : p.join? t = some f) (rest : List Token) : Stops p.tighter (t :: rest) := by
  intro u hu q hq
  cases hu
  rw [binds?_of_join? hop] at hq
  cases hq
  exact Precedence.rank_lt_tighter (joins_of_join? hop)

/-- What stops a level of operators is none of them. -/
theorem Stops.afterOperand {inner : Level} {p : Precedence} {rest : List Token} (h : Stops p rest)
    (left : Expr Unit) : ∀ t ∈ rest.head?, p.afterOperand inner left t = none := by
  intro t ht
  cases hjoin : p.join? t with
  | none => unfold Precedence.afterOperand; rw [hjoin]; rfl
  | some f => exact absurd (h t ht p (binds?_of_join? hjoin)) (Nat.lt_irrefl _)

/-- What stops the level of calls is neither a parenthesis nor a dot. -/
theorem Stops.afterCallee {inner : Level} {rest : List Token} (h : Stops .call rest)
    (callee : Expr Unit) : ∀ t ∈ rest.head?, Grammar.afterCallee inner callee t = none := by
  intro t ht
  have hcall := h t ht .call
  obtain ⟨lexeme, line⟩ := t
  unfold Grammar.afterCallee
  simp only
  split
  · exact absurd (hcall rfl) (Nat.lt_irrefl _)
  · exact absurd (hcall rfl) (Nat.lt_irrefl _)
  · rfl

/-! ## How a phrase begins -/

/-- The lexemes with which an expression begins. -/
def beginsExpression : Lexeme → Bool
  | .symbol .leftParen | .symbol .bang | .symbol .minus => true
  | .keyword .false_ | .keyword .true_ | .keyword .nil | .keyword .this | .keyword .fn => true
  | .identifier _ | .number _ _ | .string _ => true
  | _ => false

/-- How the tokens of a phrase begin: an expression with a token of its own, where `fn` has no name
after it, and a statement with none that begins a declaration, an `else` or a closing brace. -/
def Begins : Phrase → List Token → Prop
  | .expression p, ts => ∃ t us, ts = t :: us ∧ beginsExpression t.lexeme = true ∧
      (t.lexeme = .keyword .fn → startsWith (.symbol .leftParen) us = true) ∧
      (p = .call ∨ p = .primary → prefixOp? t = none)
  | .arguments, ts => ∃ t us, ts = t :: us ∧ beginsExpression t.lexeme = true
  | .routine, ts => startsWith (.symbol .leftParen) ts = true
  | .statement _, ts => ∃ t us, ts = t :: us ∧ t.lexeme ≠ .symbol .rightBrace ∧
      t.lexeme ≠ .keyword .else_ ∧ t.lexeme ≠ .keyword .class_ ∧ t.lexeme ≠ .keyword .var ∧
      (t.lexeme = .keyword .fn → startsWith (.symbol .leftParen) us = true)
  | .varDeclaration, ts => startsWith (.keyword .var) ts = true
  | .declaration _, ts => ∃ t us, ts = t :: us ∧ t.lexeme ≠ .symbol .rightBrace ∧
      t.lexeme ≠ .keyword .else_
  | _, _ => True

/-- Tokens begin with what their first ones begin with. -/
theorem startsWith_append {lexeme : Lexeme} {ts : List Token} (h : startsWith lexeme ts = true)
    (us : List Token) : startsWith lexeme (ts ++ us) = true := by
  cases ts with
  | nil => cases h
  | cons t ts => exact h

/-- A token that is an expression by itself is no operator, and it begins an expression but no function. -/
theorem prefixOp?_of_atom? {t : Token} {e : Expr Unit} (h : atom? t = some e) :
    prefixOp? t = none ∧ beginsExpression t.lexeme = true ∧ t.lexeme ≠ .keyword .fn := by
  cases isAtom_of_atom? h <;> exact ⟨rfl, rfl, nofun⟩

/-- An operator before an operand begins an expression, and no function. -/
theorem beginsExpression_of_prefixOp? {t : Token} {op : UnaryOp} (h : prefixOp? t = some op) :
    beginsExpression t.lexeme = true ∧ t.lexeme ≠ .keyword .fn := by
  obtain ⟨line, rfl, -⟩ | ⟨line, rfl, -⟩ := prefixOp?_cases h
  · exact ⟨rfl, nofun⟩
  · exact ⟨rfl, nofun⟩

/-- What follows the beginning of an expression does not change it. -/
theorem Begins.append {p q : Precedence} {ts : List Token} (h : Begins (.expression p) ts)
    (hpq : q = .call ∨ q = .primary → p = .call ∨ p = .primary) (us : List Token) :
    Begins (.expression q) (ts ++ us) := by
  obtain ⟨t, vs, rfl, hbegins, hfn, hnone⟩ := h
  exact ⟨t, vs ++ us, rfl, hbegins, fun h => startsWith_append (hfn h) us, fun h => hnone (hpq h)⟩

/-- An expression of the next tighter level begins as one of the level itself. -/
theorem Begins.of_tighter {p : Precedence} {ts : List Token}
    (h : Begins (.expression p.tighter) ts) : Begins (.expression p) ts := by
  have := h.append (q := p) (by rintro (rfl | rfl) <;> exact .inr rfl) []
  rwa [List.append_nil] at this

/-- A statement that begins with an expression begins as a statement does. -/
theorem Begins.statement {p : Precedence} {ts : List Token} (h : Begins (.expression p) ts)
    (k : Bool) (us : List Token) : Begins (.statement k) (ts ++ us) := by
  obtain ⟨t, vs, rfl, hbegins, hfn, -⟩ := h
  refine ⟨t, vs ++ us, rfl, ?_, ?_, ?_, ?_, fun h => startsWith_append (hfn h) us⟩
  all_goals
    intro hlexeme
    rw [hlexeme] at hbegins
    cases hbegins

/-- The tokens of a phrase begin with what a phrase of its kind begins with. -/
theorem Derives.begins {nearest : Bool} {d : Nat} {p : Phrase} {ts : List Token} {t : p.Tree}
    (h : Derives nearest d p ts t) : Begins p ts := by
  -- A rule with a keyword or a bracket in front shows its first token, and the others begin like their
  -- first part.
  induction h with
  | atom h =>
    obtain ⟨hnone, hbegins, hfn⟩ := prefixOp?_of_atom? h
    exact ⟨_, _, rfl, hbegins, fun h => absurd h hfn, fun _ => hnone⟩
  | grouping => exact ⟨_, _, rfl, rfl, nofun, fun _ => rfl⟩
  | lambda h ih => exact ⟨_, _, rfl, rfl, fun _ => ih, fun _ => rfl⟩
  | callNothing h ih => exact ih.append id _
  | call h ha count ih => exact (ih.append id _).append id _
  | get h ih => exact ih.append id _
  | unary hop h ih =>
    obtain ⟨hbegins, hfn⟩ := beginsExpression_of_prefixOp? hop
    exact ⟨_, _, rfl, hbegins, fun h => absurd h hfn, by rintro (h | h) <;> cases h⟩
  | join hl hop hr ihl ihr => exact ihl.append id _
  | tighter h ih => exact ih.of_tighter
  | assign => exact ⟨_, _, rfl, rfl, nofun, fun _ => rfl⟩
  | set h hv ih => exact ih.append (by rintro (h | h) <;> cases h) _
  | noClause => trivial
  | clause => trivial
  | lastArgument h ih =>
    obtain ⟨t, us, rfl, hbegins, -⟩ := ih
    exact ⟨t, us, rfl, hbegins⟩
  | argument h later ih =>
    obtain ⟨t, us, rfl, hbegins, -⟩ := ih
    exact ⟨t, _, rfl, hbegins⟩
  | routine => rfl
  | noMethod => trivial
  | method => trivial
  | expression h ih => exact ih.statement _ _
  | print | «return» | block | ifThen | ifElse | «while» | «for» =>
    refine ⟨_, _, rfl, ?_, ?_, ?_, ?_, nofun⟩ <;> exact nofun
  | noStart => trivial
  | varStart => trivial
  | expressionStart => trivial
  | unset => rfl
  | var => rfl
  | varDeclaration h ih =>
    rename_i ts s
    -- The declaration of a variable is described by its keyword alone, which is no brace and no `else`.
    cases ts with
    | nil => cases ih
    | cons t ts =>
      have hlexeme : t.lexeme = .keyword .var := of_decide_eq_true ih
      refine ⟨t, ts, rfl, ?_, ?_⟩ <;> rw [hlexeme] <;> exact nofun
  | function => exact ⟨_, _, rfl, nofun, nofun⟩
  | «class» => exact ⟨_, _, rfl, nofun, nofun⟩
  | statement h ih =>
    obtain ⟨t, us, rfl, hbrace, helse, -⟩ := ih
    exact ⟨t, us, rfl, hbrace, helse⟩
  | noDeclaration => trivial
  | declarations => trivial

/-! ## Expressions -/

/-- What a level makes of an expression that has been read and of the tokens after it. A level of
operators and the level of calls go on as long as they can, and nothing is assigned to the
expression. -/
def Precedence.Loop (inner : Level) (p : Precedence) (e : Expr Unit) (rest : List Token)
    (e' : Expr Unit) (rest' : List Token) : Prop :=
  match p with
  | .assignment => e' = e ∧ rest' = rest ∧ Stops .assignment rest
  | .operand | .primary => e' = e ∧ rest' = rest
  | .call => Extends (afterCallee inner) e rest e' rest'
  | p => Extends (p.afterOperand inner) e rest e' rest'

/-- A level reads the tokens of an expression and goes on from there. -/
def ReadsThrough (inner : Level) (p : Precedence) (ts : List Token) (e : Expr Unit) : Prop :=
  ∀ rest e' rest', Stops p.tighter rest → p.Loop inner e rest e' rest' →
    (p.parser inner).Reads (ts ++ rest) e' rest'

section

variable {inner : Level}

/-- On a level of operators between operands an expression goes on by what comes after its operands. -/
theorem Precedence.loop_of_joins {p : Precedence} (h : p.joins = true) {e e' : Expr Unit}
    {rest rest' : List Token} :
    p.Loop inner e rest e' rest' ↔ Extends (p.afterOperand inner) e rest e' rest' := by
  cases p with
  | assignment | operand | call | primary => cases h
  | _ => exact Iff.rfl

/-- A level is done with an expression where nothing goes on with it. -/
theorem Stops.loop {p : Precedence} {rest : List Token} (h : Stops p rest) (e : Expr Unit) :
    p.Loop inner e rest e rest := by
  cases hj : p.joins with
  | true => exact (Precedence.loop_of_joins hj).2 (.stop (h.afterOperand e))
  | false =>
    cases p with
    | assignment => exact ⟨rfl, rfl, h⟩
    | operand | primary => exact ⟨rfl, rfl⟩
    | call => exact .stop (h.afterCallee e)
    | _ => cases hj

/-- What is read through is read up to where its level stops. -/
theorem ReadsThrough.reads {p : Precedence} {ts rest : List Token} {e : Expr Unit}
    (h : ReadsThrough inner p ts e) (hs : Stops p rest) :
    (p.parser inner).Reads (ts ++ rest) e rest :=
  h rest e rest hs.tighter (hs.loop e)

/-- Where no operator stands before it, an operand is what is called. -/
theorem run_operand_of_none {t : Token} (h : prefixOp? t = none) (us : List Token) :
    (operand inner).run (t :: us) = (call inner).run (t :: us) := by
  obtain ⟨lexeme, line⟩ := t
  refine run_select_none ?_ us
  unfold prefixOp? at h
  simp only at h ⊢
  split
  · cases h
  · cases h
  · rfl

/-- An operator does not stand before something that is called. -/
theorem reads_operand {ts rest : List Token} {e : Expr Unit} (hb : Begins (.expression .call) ts)
    (h : (call inner).Reads (ts ++ rest) e rest) : (operand inner).Reads (ts ++ rest) e rest := by
  obtain ⟨t, us, rfl, -, -, hnone⟩ := hb
  exact (run_operand_of_none (hnone (.inl rfl)) _).trans h

/-- An expression is one of the next looser level too. -/
theorem ReadsThrough.of_tighter {p : Precedence} {ts : List Token} {e : Expr Unit}
    (hb : Begins (.expression p.tighter) ts) (h : ReadsThrough inner p.tighter ts e) :
    ReadsThrough inner p ts e := by
  intro rest e' rest' hs hloop
  -- Where operators join, going on after the operand is part of the loop. Other levels have a step of their
  -- own.
  cases hj : p.joins with
  | true =>
    rw [parser_eq_of_joins inner hj]
    refine reads_bind.2 ⟨e, rest, h.reads hs, reads_extend.2 ?_⟩
    exact (Precedence.loop_of_joins hj).1 hloop
  | false =>
    cases p with
    | assignment =>
      obtain ⟨rfl, rfl, hassign⟩ := hloop
      refine reads_bind.2 ⟨_, _, h.reads hs, ?_⟩
      -- An assignment would need an equals sign next.
      refine (reads_select_of_none fun t ht => if_neg fun hequal => ?_).2 (reads_pure.2 ⟨rfl, rfl⟩)
      have := hassign t ht .assignment (by unfold binds?; rw [hequal])
      exact Nat.lt_irrefl _ this
    | operand =>
      obtain ⟨rfl, rfl⟩ := hloop
      exact reads_operand hb (h.reads hs)
    | call => exact reads_bind.2 ⟨e, rest, h.reads hs, reads_extend.2 hloop⟩
    | primary => exact h rest e' rest' hs hloop
    | _ => cases hj

/-- What is called is a disjunction. -/
theorem ReadsThrough.disjunction {ts : List Token} {e : Expr Unit}
    (hb : Begins (.expression .call) ts) (h : ReadsThrough inner .call ts e) :
    ReadsThrough inner .disjunction ts e := by
  -- Levels without an operator of their own pass the tighter one on, from the calls up to `or`.
  have hoperand := h.of_tighter (p := .operand) hb
  have hb := Begins.of_tighter (p := .operand) hb
  have hproduct := hoperand.of_tighter (p := .product) hb
  have hb := Begins.of_tighter (p := .product) hb
  have hsum := hproduct.of_tighter (p := .sum) hb
  have hb := Begins.of_tighter (p := .sum) hb
  have hcomparison := hsum.of_tighter (p := .comparison) hb
  have hb := Begins.of_tighter (p := .comparison) hb
  have hequality := hcomparison.of_tighter (p := .equality) hb
  have hb := Begins.of_tighter (p := .equality) hb
  have hconjunction := hequality.of_tighter (p := .conjunction) hb
  exact hconjunction.of_tighter (p := .disjunction) (Begins.of_tighter (p := .conjunction) hb)

/-- A token that is an expression by itself is read. -/
theorem readsThrough_atom {t : Token} {e : Expr Unit} (h : atom? t = some e) :
    ReadsThrough inner .primary [t] e := by
  rintro rest e' rest' - ⟨rfl, rfl⟩
  cases isAtom_of_atom? h <;> exact reads_pure.2 ⟨rfl, rfl⟩

/-- An operator of a level joins what was read with the operand after it. -/
theorem ReadsThrough.join {p : Precedence} {ts us : List Token} {t : Token}
    {f : Expr Unit → Expr Unit → Expr Unit} {left right : Expr Unit}
    (hl : ReadsThrough inner p ts left) (hop : p.join? t = some f)
    (hr : ReadsThrough inner p.tighter us right) :
    ReadsThrough inner p (ts ++ t :: us) (f left right) := by
  have hj := joins_of_join? hop
  intro rest e' rest' hs hloop
  -- The left operand is read through, then one round with the operator, and then whatever goes on.
  have hround := Precedence.afterOperand_of_join? hop inner left
  have hright : (f left <$> p.tighter.parser inner).Reads (us ++ rest) (f left right) rest :=
    reads_map.2 ⟨right, hr.reads hs, rfl⟩
  have hlater := (Precedence.loop_of_joins hj).1 hloop
  rw [List.append_assoc]
  exact hl _ _ _ (stops_of_join? hop _)
    ((Precedence.loop_of_joins hj).2 (.round hround hright hlater))

/-- A property goes on with what it stands after. -/
theorem ReadsThrough.get {ts : List Token} {e : Expr Unit} {n : Name} {l : Int}
    (h : ReadsThrough inner .call ts e) :
    ReadsThrough inner .call (ts ++ [sym .dot l, ident n]) (.get e n) := by
  intro rest e' rest' hs hloop
  rw [List.append_assoc]
  refine h _ _ _ (stops_of_binds?_call rfl)
    (.round (p := Expr.get e <$> Parser.name .propertyName) rfl ?_ hloop)
  exact reads_map.2 ⟨n, reads_name.2 rfl, rfl⟩

/-- Arguments go on with what they stand after. -/
theorem ReadsThrough.call {ts us : List Token} {f : Expr Unit} {as : List (Expr Unit)} {l line : Int}
    (h : ReadsThrough inner .call ts f)
    (has : ∀ rest, (callArguments inner f).Reads (us ++ rest) (.call f line as) rest) :
    ReadsThrough inner .call (ts ++ sym .leftParen l :: us) (.call f line as) := by
  intro rest e' rest' hs hloop
  rw [List.append_assoc]
  exact h _ _ _ (stops_of_binds?_call rfl)
    (.round (p := callArguments inner f) rfl (has rest) hloop)

/-- The tokens of an expression are read in full, if it ends there. -/
def ReadsFully (p : Parser (Expr Unit)) (ts : List Token) (e : Expr Unit) : Prop :=
  ∀ rest, Stops .assignment rest → p.Reads (ts ++ rest) e rest

/-- What is read on the loosest level is read as an expression. -/
theorem ReadsThrough.fully {ts : List Token} {e : Expr Unit}
    (h : ReadsThrough inner .assignment ts e) : ReadsFully (expression inner) ts e :=
  fun _ hs => h.reads hs

/-- A grouping is read if the expression in it is. -/
theorem readsThrough_grouping (inner : Level) {ts : List Token} {e : Expr Unit} {l l' : Int}
    (h : ReadsFully inner.expression ts e) :
    ReadsThrough inner .primary (sym .leftParen l :: ts ++ [sym .rightParen l']) (.grouping e) := by
  rintro rest e' rest' - ⟨rfl, rfl⟩
  show (Grammar.primary inner).Reads (sym .leftParen l :: (ts ++ [sym .rightParen l'] ++ _)) _ _
  rw [List.append_assoc]
  refine (reads_select_some rfl).2 ?_
  refine reads_bind.2 ⟨e, _, h _ (stops_of_binds?_none rfl), ?_⟩
  exact reads_symbol_bind.2 ⟨l', _, rfl, reads_pure.2 ⟨rfl, rfl⟩⟩

/-- A function without a name is read if its routine is. -/
theorem readsThrough_lambda {ts : List Token} {r : Routine Unit} {l : Int}
    (h : ∀ name rest, (routine inner name).Reads (ts ++ rest) r rest) :
    ReadsThrough inner .primary (word .fn l :: ts) (.lambda r) := by
  rintro rest e' rest' - ⟨rfl, rfl⟩
  exact (reads_select_some rfl).2 (reads_map.2 ⟨r, h _ _, rfl⟩)

/-- An operator before an operand is read if the operand is. -/
theorem readsThrough_unary (inner : Level) {t : Token} {op : UnaryOp} {ts : List Token} {e : Expr Unit}
    (hop : prefixOp? t = some op)
    (h : ∀ rest, Stops .call rest → inner.operand.Reads (ts ++ rest) e rest) :
    ReadsThrough inner .operand (t :: ts) (.unary op t.line e) := by
  rintro rest e' rest' hs ⟨rfl, rfl⟩
  have hread := h _ hs
  obtain ⟨line, rfl, rfl⟩ | ⟨line, rfl, rfl⟩ := prefixOp?_cases hop
  · exact (reads_select_some rfl).2 (reads_map.2 ⟨e, hread, rfl⟩)
  · exact (reads_select_some rfl).2 (reads_map.2 ⟨e, hread, rfl⟩)

/-- A call without arguments is read. -/
theorem reads_noArguments {f : Expr Unit} {line : Int} (rest : List Token) :
    (callArguments inner f).Reads ([sym .rightParen line] ++ rest) (.call f line []) rest := by
  unfold callArguments
  refine reads_bind.2 ⟨[], _, reads_unlessNext.2 (.inl ⟨rfl, rfl, rfl⟩), ?_⟩
  exact reads_symbol_bind.2 ⟨line, _, rfl, reads_pure.2 ⟨rfl, rfl⟩⟩

/-- The tokens of arguments begin as those of an expression. -/
theorem startsWith_of_begins {ts : List Token} {lexeme : Lexeme}
    (h : ∃ t us, ts = t :: us ∧ beginsExpression t.lexeme = true)
    (hlexeme : beginsExpression lexeme = false) (rest : List Token) :
    startsWith lexeme (ts ++ rest) = false := by
  obtain ⟨t, us, rfl, hbegins⟩ := h
  refine decide_eq_false fun h => ?_
  rw [h, hlexeme] at hbegins
  cases hbegins

/-- A call with arguments is read if they are. -/
theorem reads_callArguments (inner : Level) {us : List Token} {f : Expr Unit} {as : List (Expr Unit)} {line : Int}
    (h : Separated (ReadsFully inner.expression) us as) (hb : Begins .arguments us)
    (count : as.length ≤ maxArguments) (rest : List Token) :
    (callArguments inner f).Reads (us ++ [sym .rightParen line] ++ rest) (.call f line as) rest := by
  unfold callArguments
  rw [List.append_assoc]
  have hend : Stops .assignment (sym .rightParen line :: rest) := stops_of_binds?_none rfl
  have has := reads_commaSeparated .tooManyArguments
    (fun ts e rest h hs => h rest hs) (fun l ts => stops_of_binds?_none rfl) h count hend rfl
  refine reads_bind.2 ⟨as, _, reads_unlessNext.2 (.inr ⟨startsWith_of_begins hb rfl _, has⟩), ?_⟩
  exact reads_symbol_bind.2 ⟨line, _, rfl, reads_pure.2 ⟨rfl, rfl⟩⟩

/-- A value is assigned to what stands before the equals sign, if it is a target. -/
theorem readsThrough_assignment (inner : Level) {ts us : List Token} {target value : Expr Unit}
    (e : Expr Unit) {l : Int}
    (hb : Begins (.expression .call) ts) (h : ReadsThrough inner .call ts target)
    (hv : ReadsFully inner.expression us value)
    (hassign : assignTo (sym .equal l) target value = pure e) :
    ReadsThrough inner .assignment (ts ++ sym .equal l :: us) e := by
  rintro rest e' rest' - ⟨rfl, rfl, hs⟩
  rw [List.append_assoc]
  -- The equals sign is no operator of the tighter levels, so the target ends before it.
  have hequal : Stops .disjunction (sym .equal l :: us ++ rest') := by
    intro t ht q hq
    cases ht
    cases hq
    decide
  refine reads_bind.2 ⟨target, _, (h.disjunction hb).reads hequal, ?_⟩
  refine (reads_select_some (if_pos rfl)).2 (reads_bind.2 ⟨value, rest', hv _ hs, ?_⟩)
  rw [hassign]
  exact reads_pure.2 ⟨rfl, rfl⟩

/-- An expression or nothing is read before a symbol that ends it. -/
theorem reads_clause {closing : Symbol} (hclosing : closing = .semicolon ∨ closing = .rightParen)
    {rest : List Token} (hrest : startsWith (.symbol closing) rest = true) {ts : List Token}
    {e : Expr Unit} (hb : Begins (.expression .assignment) ts)
    (h : ReadsFully (expression inner) ts e) :
    (clause inner closing).Reads (ts ++ rest) (some e) rest := by
  -- An expression does not begin with what closes the clause, so there is one to read.
  have hne : startsWith (.symbol closing) (ts ++ rest) = false := by
    obtain ⟨t, us, rfl, hbegins, -⟩ := hb
    refine startsWith_of_begins ⟨t, us, rfl, hbegins⟩ ?_ rest
    obtain rfl | rfl := hclosing
    · rfl
    · rfl
  -- And what closes the clause is no operator, so the expression is read to its end.
  have hs : Stops .assignment rest := by
    cases rest with
    | nil => cases hrest
    | cons t rest =>
      obtain ⟨lexeme, line⟩ := t
      have hlexeme : lexeme = .symbol closing := of_decide_eq_true hrest
      subst hlexeme
      refine stops_of_binds?_none ?_
      obtain rfl | rfl := hclosing
      · rfl
      · rfl
  exact reads_unlessNext.2 (.inr ⟨hne, reads_map.2 ⟨e, h rest hs, rfl⟩⟩)

/-- Nothing is read where the token comes that closes a clause. -/
theorem reads_noClause {closing : Symbol} {rest : List Token}
    (hrest : startsWith (.symbol closing) rest = true) :
    (clause inner closing).Reads rest none rest :=
  reads_unlessNext.2 (.inl ⟨hrest, rfl, rfl⟩)

/-! ## Routines, statements and declarations -/

/-- Parameters are read up to the parenthesis that closes them. -/
theorem reads_parameters {ts : List Token} {ns : List Name} (h : Parameters ts ns) (l : Int)
    (rest : List Token) :
    (unlessNext (.symbol .rightParen) []
      (commaSeparated (Parser.name .parameterName) .tooManyParameters)).Reads
      (ts ++ sym .rightParen l :: rest) ns (sym .rightParen l :: rest) := by
  cases h with
  | none => exact reads_unlessNext.2 (.inl ⟨rfl, rfl, rfl⟩)
  | some h count =>
    -- There is a parameter, as a name comes next and no parenthesis.
    have hname : startsWith (.symbol .rightParen) (ts ++ sym .rightParen l :: rest) = false := by
      cases h with
      | one h => subst h; rfl
      | more h later => subst h; rfl
    have hitem : ∀ us n rest, us = [ident n] → True →
        (Parser.name .parameterName).Reads (us ++ rest) n rest := by
      rintro us n rest rfl -
      exact reads_name.2 rfl
    have hns := reads_commaSeparated .tooManyParameters hitem (fun _ _ => trivial) h
      count trivial (rfl : startsWith (.symbol .comma) (sym .rightParen l :: rest) = false)
    exact reads_unlessNext.2 (.inr ⟨hname, hns⟩)

/-- A routine is read if its body is. -/
theorem reads_routine (inner : Level) {ts us : List Token} {ns : List Name} {body : List (Stmt Unit)}
    {l₁ l₂ l₃ l₄ : Int} (hp : Parameters ts ns)
    (h : ∀ rest, inner.block.Reads (us ++ sym .rightBrace l₄ :: rest) body rest) (name : String)
    (rest : List Token) :
    (routine inner name).Reads (sym .leftParen l₁ :: ts ++ sym .rightParen l₂ :: sym .leftBrace l₃ ::
      us ++ [sym .rightBrace l₄] ++ rest) (.mk ns body) rest := by
  have htokens : sym .leftParen l₁ :: ts ++ sym .rightParen l₂ :: sym .leftBrace l₃ :: us ++
      [sym .rightBrace l₄] ++ rest = sym .leftParen l₁ :: (ts ++ sym .rightParen l₂ ::
        sym .leftBrace l₃ :: (us ++ sym .rightBrace l₄ :: rest)) := by simp
  -- The tokens one by one, as the grammar has them.
  rw [htokens]
  unfold routine
  refine reads_symbol_bind.2 ⟨l₁, _, rfl, ?_⟩
  refine reads_bind.2 ⟨ns, _, reads_parameters hp l₂ _, ?_⟩
  refine reads_symbol_bind.2 ⟨l₂, _, rfl, ?_⟩
  refine reads_symbol_bind.2 ⟨l₃, _, rfl, ?_⟩
  exact reads_bind.2 ⟨body, rest, h rest, reads_pure.2 ⟨rfl, rfl⟩⟩

/-- An expression statement is read if its expression is. -/
theorem reads_expressionStatement {ts : List Token} {e : Expr Unit} {l : Int}
    (h : ReadsFully (expression inner) ts e) (rest : List Token) :
    (expressionStatement inner).Reads (ts ++ [sym .semicolon l] ++ rest) (.expression e) rest := by
  unfold expressionStatement
  rw [List.append_assoc]
  refine reads_bind.2 ⟨e, _, h _ (stops_of_binds?_none rfl), ?_⟩
  exact reads_symbol_bind.2 ⟨l, _, rfl, reads_pure.2 ⟨rfl, rfl⟩⟩

/-- A variable declaration without an initializer is read. -/
theorem reads_unset {n : Name} {l : Int} (rest : List Token) :
    (varDeclaration inner).Reads ([ident n, sym .semicolon l] ++ rest) (.var n none) rest := by
  unfold varDeclaration
  refine reads_name_bind.2 ⟨n, _, rfl, ?_⟩
  refine reads_bind.2 ⟨none, _, (reads_select_none rfl).2 (reads_pure.2 ⟨rfl, rfl⟩), ?_⟩
  exact reads_symbol_bind.2 ⟨l, _, rfl, reads_pure.2 ⟨rfl, rfl⟩⟩

/-- A variable declaration with an initializer is read if that is. -/
theorem reads_var {ts : List Token} {n : Name} {e : Expr Unit} {l l' : Int}
    (h : ReadsFully (expression inner) ts e) (rest : List Token) :
    (varDeclaration inner).Reads (ident n :: sym .equal l :: ts ++ [sym .semicolon l'] ++ rest)
      (.var n (some e)) rest := by
  unfold varDeclaration
  rw [List.append_assoc]
  have hvalue : (initialValue inner).Reads (sym .equal l :: ts ++ sym .semicolon l' :: rest) (some e)
      (sym .semicolon l' :: rest) :=
    (reads_select_some (if_pos rfl)).2
      (reads_map.2 ⟨e, h _ (stops_of_binds?_none rfl), rfl⟩)
  refine reads_name_bind.2 ⟨n, _, rfl, ?_⟩
  refine reads_bind.2 ⟨some e, _, hvalue, ?_⟩
  exact reads_symbol_bind.2 ⟨l', _, rfl, reads_pure.2 ⟨rfl, rfl⟩⟩

/-- Where an expression begins, no other start of a loop does. -/
theorem run_loopStart_expression {ts : List Token} (hb : Begins (.expression .assignment) ts) :
    (loopStart inner).run ts = (some <$> expressionStatement inner).run ts := by
  obtain ⟨⟨lexeme, line⟩, us, rfl, hbegins, -⟩ := hb
  refine run_select_none ?_ us
  simp only
  split
  · cases hbegins
  · cases hbegins
  · rfl

/-- An expression before the condition of a `for` loop is read with its semicolon. -/
theorem reads_loopStart_expression {ts : List Token} {e : Expr Unit} {l : Int}
    (hb : Begins (.expression .assignment) ts) (h : ReadsFully (expression inner) ts e)
    (rest : List Token) :
    (loopStart inner).Reads (ts ++ [sym .semicolon l] ++ rest) (some (.expression e)) rest := by
  have hread := reads_expressionStatement (l := l) h rest
  refine (run_loopStart_expression ?_).trans (reads_map.2 ⟨.expression e, hread, rfl⟩)
  exact (hb.append id _).append id _

/-- A conditional is read, whatever its second branch is. -/
theorem reads_ifStatement (inner : Level) {ts us : List Token} {c : Expr Unit} {s : Stmt Unit}
    {o : Option (Stmt Unit)} {l₁ l₂ : Int} {mid rest : List Token}
    (hc : ReadsFully (expression inner) ts c) (h : inner.statement.Reads (us ++ mid) s mid)
    (ho : (elseBranch inner).Reads mid o rest) :
    (ifStatement inner).Reads (sym .leftParen l₁ :: ts ++ sym .rightParen l₂ :: (us ++ mid))
      (.branch c s o) rest := by
  unfold ifStatement
  refine reads_symbol_bind.2 ⟨l₁, _, rfl, ?_⟩
  refine reads_bind.2 ⟨c, _, hc _ (stops_of_binds?_none rfl), ?_⟩
  refine reads_symbol_bind.2 ⟨l₂, _, rfl, ?_⟩
  refine reads_bind.2 ⟨s, _, h, ?_⟩
  exact reads_bind.2 ⟨o, _, ho, reads_pure.2 ⟨rfl, rfl⟩⟩

/-- Where no `else` follows, none is read. -/
theorem reads_noElse {rest : List Token} (h : startsWith (.keyword .else_) rest = false) :
    (elseBranch inner).Reads rest none rest := by
  refine (reads_select_of_none fun t ht => if_neg fun helse => ?_).2 (reads_pure.2 ⟨rfl, rfl⟩)
  cases rest with
  | nil => cases ht
  | cons u rest =>
    cases ht
    exact absurd h (by simp [startsWith, helse])

/-- A `while` loop is read if its condition and its body are. -/
theorem reads_whileStatement (inner : Level) {ts us rest : List Token} {c : Expr Unit} {s : Stmt Unit} {l₁ l₂ : Int}
    (hc : ReadsFully (expression inner) ts c) (h : inner.statement.Reads (us ++ rest) s rest) :
    (whileStatement inner).Reads (sym .leftParen l₁ :: ts ++ sym .rightParen l₂ :: (us ++ rest))
      (.while c s) rest := by
  unfold whileStatement
  refine reads_symbol_bind.2 ⟨l₁, _, rfl, ?_⟩
  refine reads_bind.2 ⟨c, _, hc _ (stops_of_binds?_none rfl), ?_⟩
  refine reads_symbol_bind.2 ⟨l₂, _, rfl, ?_⟩
  exact reads_bind.2 ⟨s, _, h, reads_pure.2 ⟨rfl, rfl⟩⟩

/-- A `for` loop is read if its clauses and its body are. -/
theorem reads_forStatement (inner : Level) {ts us vs ws rest : List Token} {i : Option (Stmt Unit)}
    {c n : Option (Expr Unit)} {s : Stmt Unit} {l₁ l₂ l₃ : Int}
    (hi : ∀ rest, (loopStart inner).Reads (ts ++ rest) i rest)
    (hc : ∀ rest, startsWith (.symbol .semicolon) rest = true →
      (clause inner .semicolon).Reads (us ++ rest) c rest)
    (hn : ∀ rest, startsWith (.symbol .rightParen) rest = true →
      (clause inner .rightParen).Reads (vs ++ rest) n rest)
    (h : inner.statement.Reads (ws ++ rest) s rest) :
    (forStatement inner).Reads (sym .leftParen l₁ :: (ts ++ (us ++ sym .semicolon l₂ ::
      (vs ++ sym .rightParen l₃ :: (ws ++ rest))))) (.forLoop i c n s) rest := by
  -- The tokens one by one, as the grammar has them.
  unfold forStatement
  refine reads_symbol_bind.2 ⟨l₁, _, rfl, ?_⟩
  refine reads_bind.2 ⟨i, _, hi _, ?_⟩
  refine reads_bind.2 ⟨c, _, hc _ rfl, ?_⟩
  refine reads_symbol_bind.2 ⟨l₂, _, rfl, ?_⟩
  refine reads_bind.2 ⟨n, _, hn _ rfl, ?_⟩
  refine reads_symbol_bind.2 ⟨l₃, _, rfl, ?_⟩
  exact reads_bind.2 ⟨s, _, h, reads_pure.2 ⟨rfl, rfl⟩⟩

/-- Where an expression begins, no other statement does. -/
theorem run_statement_expression {ts : List Token} (hb : Begins (.expression .assignment) ts) :
    (statement inner).run ts = (expressionStatement inner).run ts := by
  obtain ⟨⟨lexeme, line⟩, us, rfl, hbegins, -⟩ := hb
  refine run_select_none ?_ us
  simp only
  split <;> first | cases hbegins | rfl

/-- An expression statement is read as a statement: it begins with no keyword of one. -/
theorem reads_statement_expression {ts : List Token} {e : Expr Unit} {l : Int}
    (hb : Begins (.expression .assignment) ts) (h : ReadsFully (expression inner) ts e)
    (rest : List Token) :
    (statement inner).Reads (ts ++ [sym .semicolon l] ++ rest) (.expression e) rest :=
  (run_statement_expression ((hb.append id _).append id _)).trans (reads_expressionStatement h rest)

/-- A class is read if its methods are. -/
theorem reads_classDeclaration {ts : List Token} {n : Name} {ms : List (Name × Routine Unit)}
    {l₁ l₂ : Int} {rest : List Token}
    (h : Collects (fun t => decide (t.lexeme = .symbol .rightBrace)) (namedRoutine inner .methodName)
      (ts ++ sym .rightBrace l₂ :: rest) ms (sym .rightBrace l₂ :: rest)) :
    (classDeclaration inner).Reads (ident n :: sym .leftBrace l₁ :: (ts ++ sym .rightBrace l₂ :: rest))
      (.class n ms) rest := by
  unfold classDeclaration
  refine reads_name_bind.2 ⟨n, _, rfl, ?_⟩
  refine reads_symbol_bind.2 ⟨l₁, _, rfl, ?_⟩
  refine reads_bind.2 ⟨ms, _, reads_repeatUntil.2 h, ?_⟩
  exact reads_symbol_bind.2 ⟨l₂, _, rfl, reads_pure.2 ⟨rfl, rfl⟩⟩

/-- Where a statement begins, no declaration of another kind does. -/
theorem run_strictDeclaration_statement (k : Bool) {ts : List Token} (hb : Begins (.statement k) ts) :
    (strictDeclaration inner).run ts = (statement inner).run ts := by
  obtain ⟨⟨lexeme, line⟩, us, rfl, -, -, hclass, hvar, hfn⟩ := hb
  refine (run_bind_reads (reads_lookahead.2 ⟨rfl, rfl⟩)).trans (run_select_none ?_ us)
  simp only at hclass hvar hfn ⊢
  split
  · exact absurd rfl hclass
  · -- The keyword `fn` is followed by a parenthesis here, not by a name.
    cases us with
    | nil => cases hfn rfl
    | cons u us =>
      obtain ⟨lexeme, line⟩ := u
      have hlexeme : lexeme = .symbol .leftParen := of_decide_eq_true (hfn rfl)
      subst hlexeme
      rfl
  · exact absurd rfl hvar
  · rfl

/-- A statement is read as a declaration: it begins with no keyword of one. -/
theorem reads_strictDeclaration_statement {k : Bool} {ts rest : List Token} {s : Stmt Unit}
    (hb : Begins (.statement k) ts) (h : (statement inner).Reads (ts ++ rest) s rest) :
    (strictDeclaration inner).Reads (ts ++ rest) s rest := by
  obtain ⟨t, us, rfl, hbrace, helse, hclass, hvar, hfn⟩ := hb
  refine (run_strictDeclaration_statement k ?_).trans h
  exact ⟨t, us ++ rest, rfl, hbrace, helse, hclass, hvar, fun h => startsWith_append (hfn h) rest⟩

end

/-! ## Phrases -/

/-- How the parsers of a level read a kind of phrase, with any tokens after it that cannot belong to
it. -/
def ReadsPhrase (inner : Level) : (p : Phrase) → List Token → p.Tree → Prop
  | .expression p, ts, e => ReadsThrough inner p ts e
  | .clause, ts, o => ∀ closing rest, closing = .semicolon ∨ closing = .rightParen →
      startsWith (.symbol closing) rest = true → (clause inner closing).Reads (ts ++ rest) o rest
  | .arguments, ts, es => Separated (ReadsFully (expression inner)) ts es
  | .routine, ts, r => ∀ name rest, (routine inner name).Reads (ts ++ rest) r rest
  | .methods, ts, ms => ∀ rest, startsWith (.symbol .rightBrace) rest = true →
      Collects (fun t => decide (t.lexeme = .symbol .rightBrace)) (namedRoutine inner .methodName)
        (ts ++ rest) ms rest
  | .varDeclaration, ts, s => ∃ l us, ts = word .var l :: us ∧
      ∀ rest, (varDeclaration inner).Reads (us ++ rest) s rest
  | .loopStart, ts, o => ∀ rest, (loopStart inner).Reads (ts ++ rest) o rest
  | .statement k, ts, s => ∀ rest, (k = true → startsWith (.keyword .else_) rest = false) →
      (statement inner).Reads (ts ++ rest) s rest
  | .declaration k, ts, s => ∀ rest, (k = true → startsWith (.keyword .else_) rest = false) →
      (strictDeclaration inner).Reads (ts ++ rest) s rest
  | .declarations, ts, ss => ∀ stop rest,
      (∀ t, stop t = true → t.lexeme = .symbol .rightBrace) → (∀ t ∈ rest.head?, stop t = true) →
      Collects stop (declaration inner) (ts ++ rest) (ss.map some) rest

section

variable {inner : Level}

/-- The declarations of a block are read up to its closing brace. -/
theorem reads_block {ts : List Token} {ss : List (Stmt Unit)}
    (h : ReadsPhrase inner .declarations ts ss) (l : Int) (rest : List Token) :
    (block inner).Reads (ts ++ sym .rightBrace l :: rest) ss rest := by
  have hcollects := h (fun t => decide (t.lexeme = .symbol .rightBrace)) (sym .rightBrace l :: rest)
    (fun t ht => of_decide_eq_true ht) (fun t ht => by cases ht; rfl)
  unfold block
  refine reads_bind.2 ⟨ss, _, reads_map.2 ⟨_, reads_repeatUntil.2 hcollects, ?_⟩, ?_⟩
  · rw [List.filterMap_map]
    simp
  · exact reads_symbol_bind.2 ⟨l, _, rfl, reads_pure.2 ⟨rfl, rfl⟩⟩

/-- A declaration is collected with the declarations after it. -/
theorem collects_declaration {n : Nat} (hr : inner.Halts n) {ts us rest : List Token} {s : Stmt Unit}
    {ss : List (Stmt Unit)} {k : Bool} {stop : Token → Bool}
    (hstop : ∀ t, stop t = true → t.lexeme = .symbol .rightBrace)
    (hb : Begins (.declaration k) ts)
    (h : (strictDeclaration inner).Reads (ts ++ (us ++ rest)) s (us ++ rest))
    (later : Collects stop (declaration inner) (us ++ rest) (ss.map some) rest) :
    Collects stop (declaration inner) (ts ++ us ++ rest) ((s :: ss).map some) rest := by
  obtain ⟨t, vs, rfl, hbrace, -⟩ := hb
  rw [List.append_assoc]
  refine .round (Bool.eq_false_iff.2 fun ht => hbrace (hstop t ht)) ?_ later
  exact (reads_recovered (halts_strictDeclaration hr)).2 ⟨s, rfl, h⟩

/-- Where declarations go on, no `else` follows. -/
theorem startsWith_else_eq_false {nearest : Bool} {d : Nat} {us rest : List Token}
    {ss : List (Stmt Unit)} (h : Derives nearest d .declarations us ss)
    (hrest : ∀ t ∈ rest.head?, t.lexeme = .symbol .rightBrace) :
    startsWith (.keyword .else_) (us ++ rest) = false := by
  -- A brace comes next, or a declaration, and neither begins with `else`.
  cases h with
  | noDeclaration =>
    cases rest with
    | nil => rfl
    | cons t rest =>
      refine decide_eq_false fun helse => ?_
      rw [hrest t rfl] at helse
      cases helse
  | declarations h later =>
    obtain ⟨t, vs, rfl, -, helse⟩ := h.begins
    exact decide_eq_false helse

end

/-- The parsers of a level read all phrases that are nested at most as deeply as it allows. -/
theorem Derives.readsPhrase {d : Nat} {p : Phrase} {ts : List Token} {t : p.Tree}
    (h : Derives true d p ts t) : ReadsPhrase (Level.ofDepth d) p ts t := by
  induction h with
  -- Expressions. What follows goes on at no tighter level, so each loop reads the operands there are and
  -- ends.
  | atom h => exact readsThrough_atom h
  | grouping h ih => exact readsThrough_grouping (Level.ofDepth _) ih.fully
  | lambda h ih => exact readsThrough_lambda ih
  | callNothing h ih => exact ReadsThrough.call ih reads_noArguments
  | call h ha count ih iha =>
    rw [List.append_assoc]
    exact ReadsThrough.call ih (reads_callArguments (Level.ofDepth (_ + 1)) iha ha.begins count)
  | get h ih => exact ReadsThrough.get ih
  | unary hop h ih =>
    exact readsThrough_unary (Level.ofDepth (_ + 1)) hop fun rest hs => ih _ _ _ hs ⟨rfl, rfl⟩
  | join hl hop hr ihl ihr => exact ReadsThrough.join ihl hop ihr
  | tighter h ih => exact ReadsThrough.of_tighter h.begins ih
  -- The target of an assignment is read like an operand first, up to the equals sign.
  | @assign d ts n v l h ih =>
    exact readsThrough_assignment (Level.ofDepth (d + 1)) (.assign n () v)
      ⟨ident n, _, rfl, rfl, nofun, fun _ => rfl⟩
      (ReadsThrough.of_tighter (p := .call) ⟨_, _, rfl, rfl, nofun, fun _ => rfl⟩ (readsThrough_atom rfl))
      (ReadsThrough.fully ih) rfl
  | @set d ts us o v n l l' h hv ih ihv =>
    have := readsThrough_assignment (Level.ofDepth (d + 1)) (l := l') (.set o n v)
      (h.begins.append id _) (ReadsThrough.get (l := l) ih) (ReadsThrough.fully ihv) rfl
    rwa [List.append_assoc] at this
  | noClause => exact fun closing rest _ hrest => reads_noClause hrest
  | clause h ih =>
    exact fun closing rest hclosing hrest => reads_clause hclosing hrest h.begins (ReadsThrough.fully ih)
  | lastArgument h ih => exact .one (ReadsThrough.fully ih)
  | argument h later ih ihl => exact .more (ReadsThrough.fully ih) ihl
  -- Routines and classes are closed by a brace, so what follows them does not matter.
  | routine hp h ih =>
    exact fun name rest => reads_routine (Level.ofDepth (_ + 1)) hp (reads_block ih _) name rest
  | noMethod =>
    intro rest hrest
    refine .stop fun t ht => ?_
    cases rest with
    | nil => cases ht
    | cons u rest => cases ht; exact hrest
  | @method d ts us n r ms h later ih ihl =>
    intro rest hrest
    rw [List.append_assoc]
    have hmethod : (namedRoutine (Level.ofDepth d) .methodName).Reads (ident n :: (ts ++ (us ++ rest)))
        (n, r) (us ++ rest) :=
      reads_name_bind.2 ⟨n, _, rfl, reads_bind.2 ⟨r, _, ih _ _, reads_pure.2 ⟨rfl, rfl⟩⟩⟩
    exact .round rfl hmethod (ihl rest hrest)
  -- Statements. One that ends with an open conditional is read whole only if no `else` follows.
  | expression h ih =>
    exact fun rest _ => reads_statement_expression h.begins (ReadsThrough.fully ih) rest
  | print h ih =>
    intro rest _
    rw [List.append_assoc]
    refine (reads_select_some rfl).2 ?_
    refine reads_bind.2 ⟨_, _, ReadsThrough.fully ih _ (stops_of_binds?_none rfl), ?_⟩
    exact reads_symbol_bind.2 ⟨_, _, rfl, reads_pure.2 ⟨rfl, rfl⟩⟩
  | «return» h ih =>
    intro rest _
    rw [List.append_assoc]
    refine (reads_select_some rfl).2 ?_
    refine reads_bind.2 ⟨_, _, ih _ _ (.inl rfl) rfl, ?_⟩
    exact reads_symbol_bind.2 ⟨_, _, rfl, reads_pure.2 ⟨rfl, rfl⟩⟩
  | block h ih =>
    intro rest _
    rw [List.append_assoc]
    refine (reads_select_some rfl).2 (reads_map.2 ⟨_, ?_, rfl⟩)
    exact reads_block ih _ rest
  -- A conditional without `else` is open itself.
  | ifThen hc h ihc ih =>
    intro rest hrest
    have hrest := hrest rfl
    rw [List.append_assoc]
    refine (reads_select_some rfl).2 ?_
    exact reads_ifStatement (Level.ofDepth (_ + 1)) (ReadsThrough.fully ihc)
      (ih rest fun _ => hrest) (reads_noElse hrest)
  | ifElse hc h closed h' ihc ih ih' =>
    intro rest hrest
    rw [List.append_assoc, List.append_assoc]
    refine (reads_select_some rfl).2 ?_
    -- The first branch has no open conditional, so it leaves the `else`.
    have hclosed := closed rfl
    subst hclosed
    exact reads_ifStatement (Level.ofDepth (_ + 1)) (ReadsThrough.fully ihc) (ih _ nofun)
      ((reads_select_some (if_pos rfl)).2 (reads_map.2 ⟨_, ih' rest hrest, rfl⟩))
  | «while» hc h ihc ih =>
    intro rest hrest
    rw [List.append_assoc]
    refine (reads_select_some rfl).2 ?_
    exact reads_whileStatement (Level.ofDepth (_ + 1)) (ReadsThrough.fully ihc) (ih rest hrest)
  | «for» hi hc hn h ihi ihc ihn ih =>
    intro rest hrest
    rw [List.append_assoc, List.append_assoc, List.append_assoc]
    refine (reads_select_some rfl).2 ?_
    exact reads_forStatement (Level.ofDepth (_ + 1)) ihi
      (fun rest hrest => ihc _ rest (.inl rfl) hrest)
      (fun rest hrest => ihn _ rest (.inr rfl) hrest) (ih rest hrest)
  | noStart => exact fun rest => (reads_select_some rfl).2 (reads_pure.2 ⟨rfl, rfl⟩)
  | varStart h ih =>
    obtain ⟨l, us, rfl, hread⟩ := ih
    exact fun rest => (reads_select_some rfl).2 (reads_map.2 ⟨_, hread rest, rfl⟩)
  | expressionStart h ih =>
    exact fun rest => reads_loopStart_expression h.begins (ReadsThrough.fully ih) rest
  -- Declarations.
  | unset => exact ⟨_, _, rfl, fun rest => reads_unset rest⟩
  | var h ih => exact ⟨_, _, rfl, fun rest => reads_var (ReadsThrough.fully ih) rest⟩
  | varDeclaration h ih =>
    obtain ⟨l, us, rfl, hread⟩ := ih
    intro rest _
    exact reads_bind.2 ⟨_, _, reads_lookahead.2 ⟨rfl, rfl⟩, (reads_select_some rfl).2 (hread rest)⟩
  | function h ih =>
    intro rest _
    refine reads_bind.2 ⟨_, _, reads_lookahead.2 ⟨rfl, rfl⟩, (reads_select_some rfl).2 ?_⟩
    refine reads_map.2 ⟨(_, _), reads_name_bind.2 ⟨_, _, rfl, ?_⟩, rfl⟩
    exact reads_bind.2 ⟨_, _, ih _ _, reads_pure.2 ⟨rfl, rfl⟩⟩
  | «class» h ih =>
    intro rest _
    rw [List.append_assoc]
    refine reads_bind.2 ⟨_, _, reads_lookahead.2 ⟨rfl, rfl⟩, (reads_select_some rfl).2 ?_⟩
    exact reads_classDeclaration (ih _ rfl)
  | statement h ih =>
    exact fun rest hrest => reads_strictDeclaration_statement h.begins (ih rest hrest)
  | noDeclaration => exact fun stop rest _ hrest => .stop hrest
  | declarations h later ih ihl =>
    intro stop rest hstop hrest
    refine collects_declaration (Level.halts_ofDepth _) hstop h.begins (ih _ fun _ => ?_)
      (ihl stop rest hstop hrest)
    exact startsWith_else_eq_false later fun t ht => hstop t (hrest t ht)

/-- A program is read to its end without a report, and its tree is given back. -/
theorem reads_of_derives {depth : Nat} {tokens : List Token} {program : List (Stmt Unit)}
    (h : Derives true depth .declarations tokens program) :
    parseProgram depth tokens = ⟨.ok program, [], []⟩ := by
  have hcollects := h.readsPhrase (fun _ => false) [] nofun (fun t ht => nomatch ht)
  rw [List.append_nil] at hcollects
  refine reads_map.2 ⟨_, reads_repeatUntil.2 hcollects, ?_⟩
  rw [List.filterMap_map]
  simp

end Treewalk.Grammar
