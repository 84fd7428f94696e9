import Treewalk.Proofs.Grammar.Lookahead
import Treewalk.Proofs.Grammar.Worded

/-!
# What parsers give

A parser `Gives` only what is as said if it does so for all tokens of which the identifiers are names,
whether it reports errors on the way or not. Every parser of the grammar gives worded trees only, since
each rule makes a worded tree of what its parts give; recovering from an error leaves a declaration out,
and the declarations around it are still worded (`parseProgram_worded`).
-/

namespace Treewalk

/-- What a part of a program with names where names belong reaches is like that too. -/
theorem AllWorded.part {v w : Visit} (h : AllWorded v) (hw : w ∈ v.parts) : AllWorded w :=
  fun u hu => h u (.head hw hu)

end Treewalk

namespace Treewalk.Parser

variable {α β : Type} {P : α → Prop} {Q : β → Prop}

/-- All identifiers are names. -/
def Spelled (ts : List Token) : Prop := ∀ t ∈ ts, ∀ w, t.lexeme = .identifier w → IsName w

/-- Fewer tokens are spelled as well. -/
theorem Spelled.subset {ts us : List Token} (h : Spelled ts) (hsub : us ⊆ ts) : Spelled us :=
  fun t ht => h t (hsub ht)

/-- The tokens after the first are spelled as well. -/
theorem Spelled.tail {t : Token} {ts : List Token} (h : Spelled (t :: ts)) : Spelled ts :=
  h.subset (List.subset_cons_self t ts)

/-- Whatever a parser gives is as said, and the identifiers that it leaves are names. -/
def Gives (p : Parser α) (P : α → Prop) : Prop :=
  ∀ ts, Spelled ts → Spelled (p.run ts).rest ∧ ∀ a, (p.run ts).outcome = .ok a → P a

/-- What is said of the results of a parser can be weakened. -/
theorem Gives.mono {p : Parser α} {P' : α → Prop} (h : p.Gives P) (hP : ∀ a, P a → P' a) :
    p.Gives P' :=
  fun ts hts => ⟨(h ts hts).1, fun a ha => hP a ((h ts hts).2 a ha)⟩

/-- A parser that is nested too deeply gives nothing. -/
theorem gives_tooDeep : (tooDeep : Parser α).Gives P :=
  fun _ hts => ⟨hts, nofun⟩

/-- A parser that takes no token gives what it is made of. -/
theorem gives_pure {a : α} (h : P a) : (pure a : Parser α).Gives P :=
  fun _ hts => ⟨hts, fun b hb => by cases hb; exact h⟩

/-- A parser that breaks off gives nothing. -/
theorem gives_fail (fault : SyntaxFault) : (fail fault : Parser α).Gives P :=
  fun _ hts => ⟨hts, nofun⟩

/-- A parser that breaks off at a token gives nothing. -/
theorem gives_failAt (t : Token) (fault : SyntaxFault) : (failAt t fault : Parser α).Gives P :=
  fun _ hts => ⟨hts, nofun⟩

/-- A report gives nothing that matters. -/
theorem gives_note (fault : SyntaxFault) : (note fault).Gives fun _ => True :=
  fun _ hts => ⟨hts, fun _ _ => trivial⟩

/-- A look at the tokens that follow gives nothing that matters. -/
theorem gives_lookahead : lookahead.Gives fun _ => True :=
  fun _ hts => ⟨hts, fun _ _ => trivial⟩

/-- A parser after another gives what it gives on every result that the first may have. -/
theorem Gives.bind {p : Parser α} {f : α → Parser β} (hp : p.Gives P)
    (hf : ∀ a, P a → (f a).Gives Q) : (p >>= f).Gives Q := by
  intro ts hts
  obtain ⟨hrest, hgiven⟩ := hp ts hts
  cases hr : (p.run ts).outcome with
  | error halt =>
    rw [run_bind_error hr]
    exact ⟨hrest, nofun⟩
  | ok a =>
    rw [run_bind_ok hr]
    exact hf a (hgiven a hr) _ hrest

/-- What a parser gives may be changed afterwards. -/
theorem Gives.map {p : Parser α} {f : α → β} (hp : p.Gives P) (hf : ∀ a, P a → Q (f a)) :
    (f <$> p).Gives Q :=
  hp.bind fun a ha => gives_pure (hf a ha)

/-- A look at the next token gives nothing that matters. -/
theorem gives_nextIs (lexeme : Lexeme) : (nextIs lexeme).Gives fun _ => True := by
  refine gives_lookahead.bind fun us _ => ?_
  cases us with
  | nil => exact gives_pure trivial
  | cons t us => exact gives_pure trivial

/-- A report that depends on a condition gives nothing that matters. -/
theorem gives_noteIf (condition : Prop) [Decidable condition] (fault : SyntaxFault) :
    (noteIf condition fault).Gives fun _ => True := by
  unfold noteIf
  split
  · exact gives_note fault
  · exact gives_pure trivial

/-- A parser that is left out before a token gives its results or what stands for nothing. -/
theorem Gives.unlessNext {p : Parser α} {nothing : α} (hp : p.Gives P) (lexeme : Lexeme)
    (h : P nothing) : (unlessNext lexeme nothing p).Gives P := by
  refine (gives_nextIs lexeme).bind fun b _ => ?_
  split
  · exact gives_pure h
  · exact hp

/-- A choice gives what the chosen parser gives, or the one that is taken otherwise. -/
theorem Gives.select {choose : Token → Option (Parser α)} {otherwise : Parser α}
    (hc : ∀ t p, Spelled [t] → choose t = some p → p.Gives P) (ho : otherwise.Gives P) :
    (Parser.select choose otherwise).Gives P := by
  intro ts hts
  cases ts with
  | nil => exact ho [] hts
  | cons t ts =>
    -- The choice is made by a token that was spelled.
    have ht : Spelled [t] := hts.subset (List.cons_subset_cons t (List.nil_subset ts))
    unfold Parser.select
    cases h : choose t with
    | some p =>
      simp only [h]
      exact hc t p ht h ts hts.tail
    | none =>
      simp only [h]
      exact ho (t :: ts) hts

/-- A token that is expected gives what it is accepted as. -/
theorem gives_expect {accept : Token → Option α} (h : ∀ t a, Spelled [t] → accept t = some a → P a)
    (fault : SyntaxFault) : (expect accept fault).Gives P := by
  refine .select (fun t p ht hp => ?_) (gives_fail fault)
  obtain ⟨a, ha, rfl⟩ := Option.map_eq_some_iff.1 hp
  exact gives_pure (h t a ht ha)

/-- An expected symbol gives nothing that matters. -/
theorem gives_symbol (s : Symbol) (fault : SyntaxFault) : (symbol s fault).Gives fun _ => True :=
  gives_expect (fun _ _ _ _ => trivial) fault

/-- An expected name gives a name. -/
theorem gives_name (fault : SyntaxFault) : (name fault).Gives fun n => IsName n.text := by
  refine gives_expect (fun t n ht hn => ?_) fault
  obtain ⟨lexeme, line⟩ := t
  simp only at hn
  split at hn
  · cases hn
    exact ht _ (List.mem_singleton_self _) _ rfl
  · cases hn

/-- Going on from a result as long as a token calls for it keeps what holds of the result. -/
theorem gives_extend {next : β → Token → Option (Parser β)}
    (h : ∀ b t p, Q b → Spelled [t] → next b t = some p → p.Gives Q) {b : β} (hb : Q b) :
    (extend next b).Gives Q := by
  intro ts hts
  change Spelled (extendRun next b ts).rest ∧ ∀ b', (extendRun next b ts).outcome = .ok b' → Q b'
  fun_induction extendRun next b ts with
  | case1 | case2 =>
    refine ⟨hts, fun b' hb' => ?_⟩
    cases hb'
    exact hb
  -- A round is made of a token that was spelled, and the rounds after it of the others.
  | case3 b t ts p hp b' mid errors hr later ih =>
    have ht : Spelled [t] := hts.subset (List.cons_subset_cons t (List.nil_subset ts))
    have hround := h b t p hb ht hp ts hts.tail
    rw [hr] at hround
    exact ih (hround.2 b' rfl) hround.1
  | case4 b t ts p hp halt mid errors hr =>
    have ht : Spelled [t] := hts.subset (List.cons_subset_cons t (List.nil_subset ts))
    have hround := h b t p hb ht hp ts hts.tail
    rw [hr] at hround
    exact ⟨hround.1, fun _ hb' => by cases hb'⟩

/-- What is repeated gives results of the same kind only. -/
theorem gives_repeatUntil {stop : Token → Bool} {item : Parser α} (progress : item.Progress)
    (h : item.Gives P) : (repeatUntil stop item progress).Gives fun as => ∀ a ∈ as, P a := by
  intro ts hts
  change Spelled (repeatRun stop item progress ts).rest ∧
    ∀ as, (repeatRun stop item progress ts).outcome = .ok as → ∀ a ∈ as, P a
  fun_induction repeatRun stop item progress ts with
  | case1 | case2 =>
    refine ⟨hts, fun as has => ?_⟩
    cases has
    exact fun _ ha => absurd ha List.not_mem_nil
  -- The item is good, what it leaves is still spelled, and so the items after it are good too.
  | case3 t ts hstop a mid errors hr later ih =>
    have hitem := h (t :: ts) hts
    rw [hr] at hitem
    obtain ⟨hrest, hlater⟩ := ih hitem.1
    refine ⟨hrest, fun as has => ?_⟩
    obtain ⟨as', houtcome, rfl⟩ := map_eq_ok_iff.1 has
    intro b hb
    rcases List.mem_cons.1 hb with rfl | hb
    · exact hitem.2 b rfl
    · exact hlater as' houtcome b hb
  | case4 t ts hstop halt mid errors hr =>
    have hitem := h (t :: ts) hts
    rw [hr] at hitem
    exact ⟨hitem.1, fun _ has => by cases has⟩

/-- Operands with operators between them are joined to what the operators make of operands. -/
theorem Gives.chain {operand : Parser α} (h : operand.Gives P) (operator : Token → Option β)
    {join : β → Token → α → α → α} (hjoin : ∀ op t a b, P a → P b → P (join op t a b)) :
    (chain operator join operand).Gives P := by
  refine h.bind fun first hfirst => gives_extend (fun left t p hleft _ hp => ?_) hfirst
  obtain ⟨op, -, rfl⟩ := Option.map_eq_some_iff.1 hp
  exact h.map fun right hright => hjoin op t left right hleft hright

/-- Items with commas between them are all of the same kind. -/
theorem Gives.commaSeparated {item : Parser α} (h : item.Gives P) (tooMany : SyntaxFault) :
    (commaSeparated item tooMany).Gives fun as => ∀ a ∈ as, P a := by
  refine h.bind fun first hfirst => Gives.bind (P := fun items => ∀ a ∈ items.toList, P a)
    (gives_extend (fun items t p hitems _ hp => ?_) (by simpa using hfirst))
    fun items hitems => gives_pure hitems
  unfold afterComma at hp
  split at hp
  · injection hp with hp
    subst hp
    refine (gives_noteIf _ _).bind fun _ _ => h.bind fun a ha => gives_pure ?_
    rw [Array.toList_push]
    exact List.forall_mem_append.2 ⟨hitems, fun b hb => List.mem_singleton.1 hb ▸ ha⟩
  · cases hp

end Treewalk.Parser

namespace Treewalk.Grammar

open Treewalk.Parser

/-! ## Recovery -/

/-- After an error nothing is given. -/
theorem gives_recovered {α : Type} {p : Parser α} {P : α → Prop} (hp : p.Gives P) :
    (recovered p).Gives fun o => ∀ a ∈ o, P a := by
  intro ts hts
  have hgiven := hp ts hts
  unfold recovered
  rcases hr : p.run ts with ⟨halt | a, mid, errors⟩
  · rw [hr] at hgiven
    simp only [hr]
    cases halt with
    -- The tokens that are skipped were spelled, and no result is given.
    | broken =>
      refine ⟨hgiven.1.subset (resume_suffix mid).subset, fun o ho => ?_⟩
      cases ho
      exact fun a ha => by cases ha
    | tooDeep => exact ⟨hgiven.1, fun _ ho => by cases ho⟩
  · rw [hr] at hgiven
    simp only [hr]
    refine ⟨hgiven.1, fun o ho => ?_⟩
    cases ho
    intro b hb
    cases hb
    exact hgiven.2 a rfl

/-! ## Lists of trees -/

/-- Arguments are worded if each of them is. -/
theorem wordedTree_arguments {xs : List (Expr Unit)}
    (h : ∀ x ∈ xs, WordedTree (.expression .assignment) x) : WordedTree .arguments xs := by
  induction xs with
  | nil => exact AllWorded_noArguments
  | cons x xs ih =>
    exact AllWorded_arguments (h x List.mem_cons_self) (ih fun y hy => h y (List.mem_cons_of_mem x hy))

/-- Methods are worded if each of them has a name and a worded routine. -/
theorem wordedTree_methods {ms : List (Name × Routine Unit)}
    (h : ∀ m ∈ ms, IsName m.1.text ∧ WordedTree .routine m.2) : WordedTree .methods ms := by
  induction ms with
  | nil => exact fun p => .intro (.of_none rfl trivial) fun w hw => by cases hw
  | cons m ms ih =>
    obtain ⟨hname, hroutine⟩ := h m List.mem_cons_self
    have hlater := ih fun m' hm' => h m' (List.mem_cons_of_mem m hm')
    refine fun p => .of_two ⟨fun w hw => ?_, trivial⟩ rfl (hroutine p _) (hlater p)
    rcases List.mem_cons.1 hw with rfl | hw
    · exact hname
    · exact (hlater p _ .refl).names w hw

/-- The statements of a body are worded if each of them is. -/
theorem wordedTree_declarations {ss : List (Stmt Unit)}
    (h : ∀ s ∈ ss, WordedTree (.declaration false) s) : WordedTree .declarations ss := by
  induction ss with
  | nil => exact AllWorded_noBody
  | cons s ss ih =>
    exact AllWorded_body (h s List.mem_cons_self) (ih fun t ht => h t (List.mem_cons_of_mem s ht))

/-! ## The parsers of a level -/

/-- Every parser of a level gives worded trees. -/
structure Level.Worded (inner : Level) : Prop where
  expression : inner.expression.Gives (WordedTree (.expression .assignment))
  operand : inner.operand.Gives (WordedTree (.expression .assignment))
  statement : inner.statement.Gives (WordedTree (.statement false))
  block : inner.block.Gives (WordedTree .declarations)

/-- What is assigned to was read as an expression. -/
theorem gives_assignTo (t : Token) {target value : Expr Unit}
    (htarget : WordedTree (.expression .assignment) target)
    (hvalue : WordedTree (.expression .assignment) value) :
    (assignTo t target value).Gives (WordedTree (.expression .assignment)) := by
  unfold assignTo
  split
  · next n mark =>
    exact gives_pure fun p =>
      .of_one ⟨(htarget p _ .refl).names, trivial⟩ rfl (hvalue p.inside)
  · next object n =>
    exact gives_pure fun p => .of_two ⟨(htarget p _ .refl).names, trivial⟩ rfl (hvalue p.inside)
      ((htarget p).part List.mem_cons_self)
  · exact gives_failAt _ _

section

variable {inner : Level} (hi : inner.Worded)
include hi

/-- A routine has names for parameters and a worded body. -/
theorem gives_routine (name : String) : (routine inner name).Gives (WordedTree .routine) := by
  refine (gives_symbol _ _).bind fun _ _ => Gives.bind (P := fun ns => ∀ n ∈ ns, IsName n.text)
    (((gives_name _).commaSeparated _).unlessNext _ fun _ hn => absurd hn List.not_mem_nil) fun ns hns =>
    (gives_symbol _ _).bind fun _ _ => (gives_symbol _ _).bind fun _ _ =>
    hi.block.bind fun body hbody => gives_pure fun p kind => ?_
  refine .of_one ⟨fun w hw => ?_, trivial⟩ rfl (hbody _)
  obtain ⟨n, hn, rfl⟩ := List.mem_map.1 hw
  exact hns n hn

/-- What stands alone is worded: a literal, a name, the receiver, a grouping or a routine. -/
theorem gives_primary : (primary inner).Gives (WordedTree (.expression .assignment)) := by
  have halone : ∀ {x : Expr Unit}, (Node.expression x).Worded →
      (∀ p, Visit.parts ⟨p, .expression x⟩ = []) → WordedTree (.expression .assignment) x :=
    fun hx hparts p => .intro hx fun w hw => by
      rw [hparts p] at hw
      cases hw
  refine Gives.select (fun t p ht h => ?_) (gives_fail _)
  obtain ⟨lexeme, line⟩ := t
  simp only at h
  -- All kinds of primary expressions are nodes without parts, but for the three with a name, a grouping or
  -- a routine.
  split at h <;> cases h
  case h_7 =>
    have hn := ht _ (List.mem_singleton_self _) _ rfl
    exact gives_pure (halone (.of_name rfl hn trivial) fun _ => rfl)
  case h_8 =>
    exact hi.expression.bind fun x hx => (gives_symbol _ _).bind fun _ _ =>
      gives_pure fun p => .of_one (.of_none rfl trivial) rfl (hx p.inside)
  case h_9 =>
    exact (gives_routine hi _).map fun r hr p =>
      .of_one (.of_none rfl trivial) rfl (hr p.inside .function)
  all_goals exact gives_pure (halone (.of_none rfl trivial) fun _ => rfl)

/-- Calls and properties are worded if what they are about is. -/
theorem gives_call : (call inner).Gives (WordedTree (.expression .assignment)) := by
  refine (gives_primary hi).bind fun callee hcallee => gives_extend (fun x t p hx ht h => ?_) hcallee
  unfold afterCallee at h
  split at h <;> cases h
  · refine Gives.bind (P := fun xs => ∀ x ∈ xs, WordedTree (.expression .assignment) x)
      ((hi.expression.commaSeparated _).unlessNext _ nofun) fun xs hxs =>
      (gives_symbol _ _).bind fun _ _ => gives_pure fun p => ?_
    exact .of_two (.of_none rfl trivial) rfl (hx p.inside) (wordedTree_arguments hxs p.inside)
  · exact (gives_name _).map fun n hn p => .of_one (.of_name rfl hn trivial) rfl (hx p.inside)

/-- An operand with operators before it is worded. -/
theorem gives_operand : (operand inner).Gives (WordedTree (.expression .assignment)) := by
  refine Gives.select (fun t p _ h => ?_) (gives_call hi)
  obtain ⟨lexeme, line⟩ := t
  simp only at h
  split at h <;> cases h
  · exact hi.operand.map fun x hx p => .of_one (.of_none rfl trivial) rfl (hx p.inside)
  · exact hi.operand.map fun x hx p => .of_one (.of_none rfl trivial) rfl (hx p.inside)

/-- The operators between operands make worded expressions, on every level up to the loosest. -/
theorem gives_disjunction : (disjunction inner).Gives (WordedTree (.expression .assignment)) := by
  have hbinary : ∀ {operator tighter}, Gives tighter (WordedTree (.expression .assignment)) →
      (binaryChain operator tighter).Gives (WordedTree (.expression .assignment)) := fun h =>
    h.chain _ fun op t a b ha hb p => .of_two (.of_none rfl trivial) rfl (ha p.inside) (hb p.inside)
  have hlogical : ∀ {keyword op tighter}, Gives tighter (WordedTree (.expression .assignment)) →
      (logicalChain keyword op tighter).Gives (WordedTree (.expression .assignment)) := fun h =>
    h.chain _ fun op t a b ha hb p => .of_two (.of_none rfl trivial) rfl (ha p.inside) (hb p.inside)
  exact hlogical (hlogical (hbinary (hbinary (hbinary (hbinary (gives_operand hi))))))

/-- An expression is worded, with an assignment or without one. -/
theorem gives_expression : (expression inner).Gives (WordedTree (.expression .assignment)) := by
  refine (gives_disjunction hi).bind fun target htarget =>
    Gives.select (fun t p _ h => ?_) (gives_pure htarget)
  split at h
  · injection h with h
    subst h
    exact hi.expression.bind fun value hvalue => gives_assignTo t htarget hvalue
  · cases h

/-- A clause is worded, or it is missing. -/
theorem gives_clause (closing : Symbol) : (clause inner closing).Gives (WordedTree .clause) :=
  ((gives_expression hi).map fun x hx y hy => by cases hy; exact hx).unlessNext _ nofun

/-- A variable declaration has a name and a worded initializer, if it has one. -/
theorem gives_varDeclaration : (varDeclaration inner).Gives (WordedTree .varDeclaration) := by
  refine (gives_name _).bind fun n hn => Gives.bind (P := WordedTree .clause) ?_ fun x hx =>
    (gives_symbol _ _).bind fun _ _ => gives_pure fun p => ?_
  · refine Gives.select (fun t p _ h => ?_) (gives_pure nofun)
    split at h
    · injection h with h
      subst h
      exact (gives_expression hi).map fun x hx y hy => by cases hy; exact hx
    · cases h
  · cases x with
    | none => exact .intro (.of_name rfl hn trivial) fun w hw => by cases hw
    | some x => exact .of_one (.of_name rfl hn trivial) rfl (hx x rfl _)

/-- An expression statement is worded. -/
theorem gives_expressionStatement :
    (expressionStatement inner).Gives (WordedTree (.statement false)) :=
  (gives_expression hi).bind fun _ hx => (gives_symbol _ _).bind fun _ _ =>
    gives_pure ⟨rfl, AllWorded_statement hx⟩

/-- What stands after an `else` is worded. -/
theorem gives_elseBranch :
    (elseBranch inner).Gives fun s => ∀ t ∈ s, WordedTree (.statement false) t := by
  refine Gives.select (fun t p _ h => ?_) (gives_pure nofun)
  split at h
  · injection h with h
    subst h
    exact hi.statement.map fun s hs t ht => by cases ht; exact hs
  · cases h

/-- A conditional is worded, with an `else` or without. -/
theorem gives_ifStatement : (ifStatement inner).Gives (WordedTree (.statement false)) := by
  refine (gives_symbol _ _).bind fun _ _ => (gives_expression hi).bind fun x hx =>
    (gives_symbol _ _).bind fun _ _ => hi.statement.bind fun s hs =>
    (gives_elseBranch hi).bind fun s' hs' => gives_pure ⟨rfl, fun p => ?_⟩
  -- The branches declare nothing, by the level below; then part by part.
  refine .intro (.of_none rfl ⟨hs.1, fun t ht => (hs' t ht).1⟩) fun w hw => ?_
  cases s' with
  | none =>
    simp only [Visit.parts, List.mem_cons, List.not_mem_nil, or_false] at hw
    obtain rfl | rfl := hw
    · exact hx p.inside
    · exact hs.2 p.inside
  | some s' =>
    simp only [Visit.parts, List.mem_cons, List.not_mem_nil, or_false] at hw
    obtain rfl | rfl | rfl := hw
    · exact hx p.inside
    · exact hs.2 p.inside
    · exact (hs' s' rfl).2 p.inside

/-- A `while` loop is worded. -/
theorem gives_whileStatement : (whileStatement inner).Gives (WordedTree (.statement false)) :=
  (gives_symbol _ _).bind fun _ _ => (gives_expression hi).bind fun _ hx =>
    (gives_symbol _ _).bind fun _ _ => hi.statement.bind fun _ hs =>
    gives_pure ⟨rfl, AllWorded_while hx hs.1 hs.2⟩

/-- What stands before the condition of a `for` loop is worded. -/
theorem gives_loopStart : (loopStart inner).Gives (WordedTree .loopStart) := by
  refine Gives.select (fun t p _ h => ?_)
    ((gives_expressionStatement hi).map fun s hs t ht => by cases ht; exact hs.2)
  split at h <;> cases h
  · exact gives_pure nofun
  · exact (gives_varDeclaration hi).map fun s hs t ht => by cases ht; exact hs

/-- A `for` loop is worded as what it is written as. -/
theorem gives_forStatement : (forStatement inner).Gives (WordedTree (.statement false)) :=
  (gives_symbol _ _).bind fun _ _ => (gives_loopStart hi).bind fun _ hstart =>
    (gives_clause hi _).bind fun _ hc => (gives_symbol _ _).bind fun _ _ =>
    (gives_clause hi _).bind fun _ hn => (gives_symbol _ _).bind fun _ _ =>
    hi.statement.bind fun _ hs => gives_pure (wordedTree_forLoop hstart hc hn hs)

/-- A statement is worded, whichever keyword it begins with. -/
theorem gives_statement : (statement inner).Gives (WordedTree (.statement false)) := by
  refine Gives.select (fun t p _ h => ?_) (gives_expressionStatement hi)
  -- One case for each statement with a keyword, and blocks.
  split at h <;> cases h
  · exact (gives_expression hi).bind fun x hx => (gives_symbol _ _).bind fun _ _ =>
      gives_pure ⟨rfl, fun p => .of_one (.of_none rfl trivial) rfl (hx p.inside)⟩
  · exact hi.block.map fun ss hss => ⟨rfl, AllWorded_block hss⟩
  · exact gives_ifStatement hi
  · exact gives_whileStatement hi
  · exact gives_forStatement hi
  · refine (gives_clause hi _).bind fun x hx => (gives_symbol _ _).bind fun _ _ =>
      gives_pure ⟨rfl, fun p => ?_⟩
    cases x with
    | none => exact .intro (.of_none rfl trivial) fun w hw => by cases hw
    | some x => exact .of_one (.of_none rfl trivial) rfl (hx x rfl p.inside)

/-- A routine with a name has one, and is worded. -/
theorem gives_namedRoutine (missingName : SyntaxFault) : (namedRoutine inner missingName).Gives
    fun m => IsName m.1.text ∧ WordedTree .routine m.2 :=
  (gives_name _).bind fun _ hn => (gives_routine hi _).bind fun _ hr => gives_pure ⟨hn, hr⟩

/-- A class has a name and worded methods. -/
theorem gives_classDeclaration :
    (classDeclaration inner).Gives (WordedTree (.declaration false)) :=
  (gives_name _).bind fun _ hn => (gives_symbol _ _).bind fun _ _ =>
    (gives_repeatUntil _ (gives_namedRoutine hi _)).bind fun _ hms =>
    (gives_symbol _ _).bind fun _ _ =>
    gives_pure fun _ => .of_one (.of_name rfl hn trivial) rfl (wordedTree_methods hms _)

/-- A declaration is worded, whichever keyword it begins with. -/
theorem gives_strictDeclaration :
    (strictDeclaration inner).Gives (WordedTree (.declaration false)) := by
  refine gives_lookahead.bind fun us _ =>
    Gives.select (fun t p _ h => ?_) ((gives_statement hi).mono fun s hs => hs.2)
  -- A class, a function with a name, a variable, or else a statement.
  split at h
  · cases h
    exact gives_classDeclaration hi
  · split at h
    · cases h
      exact (gives_namedRoutine hi _).map fun m hm p =>
        .of_one (.of_name rfl hm.1 trivial) rfl (hm.2 _ _)
    · cases h
  · cases h
    exact gives_varDeclaration hi
  · cases h

/-- The declarations that were not given up are worded. -/
theorem gives_declarations (stop : Token → Bool) :
    (declarations inner stop).Gives (WordedTree .declarations) :=
  (gives_repeatUntil _ (gives_recovered (gives_strictDeclaration hi))).map fun os hos =>
    wordedTree_declarations fun s hs => by
      obtain ⟨o, ho, hos'⟩ := List.mem_filterMap.1 hs
      exact hos o ho s hos'

/-- The statements of a block are worded. -/
theorem gives_block : (block inner).Gives (WordedTree .declarations) :=
  (gives_declarations hi _).bind fun _ hbody => (gives_symbol _ _).bind fun _ _ => gives_pure hbody

end

/-- All parsers of a level give worded trees, however deep the level is. -/
theorem Level.worded_ofDepth (depth : Nat) : (Level.ofDepth depth).Worded := by
  induction depth with
  | zero => exact ⟨gives_tooDeep, gives_tooDeep, gives_tooDeep, gives_tooDeep⟩
  | succ depth ih => exact ⟨gives_expression ih, gives_operand ih, gives_statement ih, gives_block ih⟩

/-- The program of a text is worded, whatever errors are reported with it. -/
theorem parseProgram_worded {depth : Nat} {text : String} {line : Int} {program : List (Stmt Unit)}
    (h : (parseProgram depth (Scan.ofText text line).tokens).outcome = .ok program) (p : Place) :
    AllWorded ⟨p, .body program⟩ :=
  (gives_declarations (Level.worded_ofDepth depth) _ _ fun _ ht _ hw => Scan.isName ht hw).2 _ h p

end Treewalk.Grammar
