import Treewalk.Proofs.Grammar.Derivation
import Treewalk.Proofs.Grammar.Lookahead
import Mathlib.Data.List.Basic

/-!
# Parsing at the boundary of statements

What comes after the tokens of whole statements is read by itself: it does not change the statements
before it or their errors, and these do not change what is read of it (`parseProgram_append_of_boundary`).
This holds of broken statements too. Where a declaration is given up, skipping goes on over the boundary
only if no semicolon ends it, and a parser that has reached the last token has reported the end there
unless the statement was complete. So it is enough that nothing is reported at the end of the first
tokens, and that they end with a semicolon if anything is reported about them. A conditional is the one
statement that may go on after its end, with an `else`.

The parsers of a level are phrases or sentences in the sense of `Lookahead.lean`, and the declarations of
a program are taken one after the other up to the boundary (`run_optionalDeclarations_append`).
-/

namespace Treewalk

/-- What is made of some tokens, after items that were read before them and the errors on the way. -/
def Parsed.after {α : Type} (r : Parsed (List α)) (items : List α) (errors : List SyntaxError) :
    Parsed (List α) :=
  ⟨r.outcome.map (items ++ ·), r.rest, errors ++ r.errors⟩

/-- What is made of tokens after nothing is what is made of them. -/
theorem Parsed.after_nil {α : Type} (r : Parsed (List α)) : r.after [] [] = r := by
  obtain ⟨_ | _, rest, errors⟩ := r <;> rfl

/-- An item before what was read after others is read before them all. -/
theorem Parsed.after_cons {α : Type} (r : Parsed (List α)) (a : α) (items : List α)
    (errors errors' : List SyntaxError) :
    ⟨(r.after items errors').outcome.map (a :: ·), (r.after items errors').rest,
      errors ++ (r.after items errors').errors⟩ = r.after (a :: items) (errors ++ errors') := by
  obtain ⟨_ | _, rest, later⟩ := r <;> simp [Parsed.after, Except.map]

namespace Grammar

open Treewalk.Parser

/-! ## Expressions -/

/-- How far the parsers of a level look. -/
structure Level.Steady (inner : Level) : Prop where
  expression : inner.expression.Phrase
  needs_expression : inner.expression.NeedsToken
  operand : inner.operand.Phrase
  statement : inner.statement.Sentence
  needs_statement : inner.statement.NeedsToken
  block : inner.block.Phrase
  /-- A block is also complete by itself. -/
  block_closed : inner.block.Sentence

section

variable {inner : Level} (hi : inner.Steady)
include hi

/-- A routine reads a piece of an expression: its last token is a brace. -/
theorem phrase_routine (name : String) : (routine inner name).Phrase :=
  (phrase_symbol _ (by decide)).bind fun _ =>
    (((phrase_name _).commaSeparated _).unlessNext _ _).bind fun _ =>
    (phrase_symbol _ (by decide)).bind fun _ => (phrase_symbol _ (by decide)).bind fun _ =>
    hi.block.bind fun _ => phrase_pure _

/-- What stands alone is a piece of an expression. -/
theorem phrase_primary : (primary inner).Phrase := by
  refine Phrase.select (fun t p h => ?_) (phrase_fail _)
  obtain ⟨lexeme, line⟩ := t
  simp only at h
  split at h <;> cases h
  case h_8 =>
    exact ⟨hi.expression.bind fun _ => (phrase_symbol _ (by decide)).bind fun _ => phrase_pure _, nofun⟩
  case h_9 => exact ⟨(phrase_routine hi _).map _, nofun⟩
  all_goals exact ⟨phrase_pure _, nofun⟩

/-- Calls and properties make a piece of an expression. -/
theorem phrase_call : (call inner).Phrase := by
  refine (phrase_primary hi).bind fun callee => phrase_extend (fun e t p h => ?_) callee
  unfold afterCallee at h
  split at h <;> cases h
  · next ht =>
    refine ⟨((hi.expression.commaSeparated _).unlessNext _ _).bind fun _ =>
      (phrase_symbol _ (by decide)).bind fun _ => phrase_pure _, ?_⟩
    rw [ht]
    nofun
  · next ht =>
    refine ⟨(phrase_name _).map _, ?_⟩
    rw [ht]
    nofun

/-- An operand with operators before it is a piece of an expression. -/
theorem phrase_operand : (operand inner).Phrase := by
  refine Phrase.select (fun t p h => ?_) (phrase_call hi)
  obtain ⟨lexeme, line⟩ := t
  simp only at h
  split at h <;> cases h
  · exact ⟨hi.operand.map _, nofun⟩
  · exact ⟨hi.operand.map _, nofun⟩

end

/-- No operator of two operands is a semicolon. -/
theorem phrase_binaryChain {operator : Lexeme → Option BinaryOp} {tighter : Parser (Expr Unit)}
    (ho : operator (.symbol .semicolon) = none) (h : tighter.Phrase) :
    (binaryChain operator tighter).Phrase := by
  refine h.chain _ fun t op hop ht => ?_
  rw [ht, ho] at hop
  cases hop

/-- A chain of operands with one keyword between them is a piece of an expression. -/
theorem phrase_logicalChain {keyword : Keyword} {op : LogicalOp} {tighter : Parser (Expr Unit)}
    (h : tighter.Phrase) : (logicalChain keyword op tighter).Phrase := by
  refine h.chain _ fun t op hop ht => ?_
  rw [ht] at hop
  cases hop

section

variable {inner : Level} (hi : inner.Steady)
include hi

/-- The operators between operands make a piece of an expression, on every level. -/
theorem phrase_disjunction : (disjunction inner).Phrase :=
  phrase_logicalChain <| phrase_logicalChain <| phrase_binaryChain rfl <| phrase_binaryChain rfl <|
    phrase_binaryChain rfl <| phrase_binaryChain rfl <| phrase_operand hi

/-- The value of an assignment, after the equals sign. The report that the target is none comes after
the value, which never ends with a semicolon. -/
theorem phrase_assigned (equals : Token) (target : Expr Unit) :
    (inner.expression >>= assignTo equals target).Phrase := by
  intro ts
  by_cases hopen : (inner.expression.run ts).rest = [] ∧ ∃ a, (inner.expression.run ts).outcome = .ok a
  · -- The value takes all the tokens, so the last of them is its own, and it is no semicolon.
    obtain ⟨hmid, a, ha⟩ := hopen
    have hne : ts ≠ [] := by
      rintro rfl
      exact hi.needs_expression a ha
    have hunclosed := (hi.expression ts).taken a ha hne hmid
    have hrun := run_bind_ok (f := assignTo equals target) ha
    rw [hmid] at hrun
    have hrest := List.length_eq_zero_iff.1 (Nat.le_zero.1 ((assignTo equals target a).shrinks []))
    refine ⟨⟨?_, ?_, ?_⟩, ?_⟩
    · rw [hrun, hrest]
      exact List.nil_suffix
    · rw [hrun, hrest]
      exact fun hnil => absurd rfl hnil
    · rw [hrun]
      exact fun _ _ => hunclosed.mono (List.subset_append_left _ _)
    · rw [hrun]
      exact fun _ _ _ _ => hunclosed.mono (List.subset_append_left _ _)
  · -- A token is left after the value, and what is reported does not depend on those after it.
    refine (hi.expression ts).bind fun a ha => ?_
    obtain ⟨t, us, hus⟩ := List.exists_cons_of_ne_nil fun hmid => hopen ⟨hmid, a, ha⟩
    rw [hus]
    unfold assignTo
    split
    · exact phrase_pure _ _
    · exact phrase_pure _ _
    · exact ⟨⟨List.suffix_refl _, fun _ _ => rfl, nofun⟩, nofun⟩

/-- An expression is a piece of one. -/
theorem phrase_expression : (expression inner).Phrase := by
  refine (phrase_disjunction hi).bind fun target => Phrase.select (fun t p h => ?_) (phrase_pure _)
  split at h
  · next ht =>
    cases h
    refine ⟨phrase_assigned hi t target, ?_⟩
    rw [ht]
    nofun
  · cases h

end

/-! ## Statements and declarations -/

/-- There is no expression without a token. -/
theorem needsToken_expression (inner : Level) : (expression inner).NeedsToken := fun _ h => nomatch h

/-- There is no statement without a token. -/
theorem needsToken_statement (inner : Level) : (statement inner).NeedsToken := fun _ h => nomatch h

/-- A symbol at the end of a sentence. -/
theorem sentence_closing (s : Symbol) (fault : SyntaxFault) {α : Type} (a : Int → α) :
    (symbol s fault >>= fun line => pure (a line)).Sentence :=
  (sentence_expect _ _).bind fun _ => sentence_pure _

section

variable {inner : Level} (hi : inner.Steady)
include hi

/-- A clause is a piece of an expression. -/
theorem phrase_clause (closing : Symbol) : (clause inner closing).Phrase :=
  ((phrase_expression hi).map _).unlessNext _ _

/-- An expression that a semicolon closes. -/
theorem sentence_closed {α : Type} (s : Symbol) (fault : SyntaxFault) (a : Expr Unit → α) :
    (expression inner >>= fun e => symbol s fault >>= fun _ => pure (a e)).Sentence :=
  (phrase_expression hi).part.sentence_bind (fun _ => sentence_closing s fault _)
    fun _ => (needsToken_expect _ _).bind _

/-- A variable declaration is complete with its semicolon. -/
theorem sentence_varDeclaration : (varDeclaration inner).Sentence := by
  refine (sentence_expect _ _).bind fun name => Part.sentence_bind ?_
    (fun _ => sentence_closing _ _ _) fun _ => (needsToken_expect _ _).bind _
  refine Part.select (fun t p h => ?_) (phrase_pure _).part
  split at h
  · cases h
    exact (phrase_expression hi).part.map _
  · cases h

/-- A routine is complete with its closing brace. -/
theorem sentence_routine (name : String) : (routine inner name).Sentence := by
  refine (sentence_expect _ _).bind fun _ => Part.sentence_bind ?_ (fun parameters => ?_)
    fun _ => (needsToken_expect _ _).bind _
  · exact (((phrase_name _).commaSeparated _).unlessNext _ _).part
  · exact (sentence_expect _ _).bind fun _ => (sentence_expect _ _).bind fun _ =>
      hi.block_closed.bind fun _ => sentence_pure _

/-- A routine with a name is complete. -/
theorem sentence_namedRoutine (missingName : SyntaxFault) :
    (namedRoutine inner missingName).Sentence :=
  (sentence_expect _ _).bind fun _ => (sentence_routine hi _).bind fun _ => sentence_pure _

/-- A class is complete with its closing brace. -/
theorem sentence_classDeclaration : (classDeclaration inner).Sentence :=
  (sentence_expect _ _).bind fun _ => (sentence_expect _ _).bind fun _ =>
    (part_repeatUntil _ (sentence_namedRoutine hi _).part).sentence_bind
      (fun _ => sentence_closing _ _ _) fun _ => (needsToken_expect _ _).bind _

/-- The second branch of a conditional is missing where no `else` follows. -/
theorem sentence_elseBranch : (elseBranch inner).Sentence := by
  refine ⟨Part.select (fun t p h => ?_) (phrase_pure _).part, fun {ts more a} ha helse => ?_⟩
  · split at h
    · cases h
      exact hi.statement.part.map _
    · cases h
  · unfold elseBranch Ignores at *
    cases ts with
    | nil =>
      -- The one place where a sentence that takes all tokens could go on in those after them.
      cases more with
      | nil => rfl
      | cons t more =>
        rw [List.nil_append, run_select_none (if_neg (of_decide_eq_false helse))]
        rfl
    | cons t ts =>
      rw [List.cons_append]
      by_cases ht : t.lexeme = .keyword .else_
      · rw [run_select_some (if_pos ht)] at ha ⊢
        rw [run_select_some (if_pos ht)]
        exact (hi.statement.map some).settled ha helse
      · rw [run_select_none (if_neg ht), run_select_none (if_neg ht)]
        rfl

/-- A conditional is complete, as long as no `else` comes after it. -/
theorem sentence_ifStatement : (ifStatement inner).Sentence := by
  refine (sentence_expect _ _).bind fun _ => (phrase_expression hi).part.sentence_bind (fun _ => ?_)
    fun _ => (needsToken_expect _ _).bind _
  exact (sentence_expect _ _).bind fun _ => hi.statement.bind fun _ =>
    (sentence_elseBranch hi).bind fun _ => sentence_pure _

/-- A `while` loop is complete with its body. -/
theorem sentence_whileStatement : (whileStatement inner).Sentence := by
  refine (sentence_expect _ _).bind fun _ => (phrase_expression hi).part.sentence_bind (fun _ => ?_)
    fun _ => (needsToken_expect _ _).bind _
  exact (sentence_expect _ _).bind fun _ => hi.statement.bind fun _ => sentence_pure _

/-- What stands before the condition of a `for` loop looks no further than to the next token. -/
theorem part_loopStart : (loopStart inner).Part := by
  refine Part.select (fun t p h => ?_) ((sentence_closed hi _ _ _).part.map _)
  split at h <;> cases h
  · exact (phrase_pure _).part
  · exact (sentence_varDeclaration hi).part.map _

/-- A `for` loop is complete with its body. -/
theorem sentence_forStatement : (forStatement inner).Sentence := by
  -- Each clause is read up to the symbol that closes it.
  have hbody : ∀ (initial : Option (Stmt Unit)) condition next,
      (symbol .rightParen .forClausesClosing >>= fun _ => inner.statement >>= fun body =>
        pure (Stmt.forLoop initial condition next body)).Sentence := fun _ _ _ =>
    (sentence_expect _ _).bind fun _ => hi.statement.bind fun _ => sentence_pure _
  refine (sentence_expect _ _).bind fun _ => (part_loopStart hi).sentence_bind (fun initial => ?_)
    fun _ => NeedsToken.of_bind _ fun _ => (needsToken_expect _ _).bind _
  refine (phrase_clause hi _).part.sentence_bind (fun condition => ?_)
    fun _ => (needsToken_expect _ _).bind _
  exact (sentence_expect _ _).bind fun _ => (phrase_clause hi _).part.sentence_bind
    (fun next => hbody initial condition next) fun _ => (needsToken_expect _ _).bind _

/-- A return statement is complete with its semicolon. -/
theorem sentence_returnStatement (line : Int) : (returnStatement inner line).Sentence :=
  (phrase_clause hi _).part.sentence_bind (fun _ => sentence_closing _ _ _)
    fun _ => (needsToken_expect _ _).bind _

/-- A statement is complete. -/
theorem sentence_statement : (statement inner).Sentence := by
  refine Sentence.select (fun t p h => ?_) (sentence_closed hi _ _ _) fun _ h => nomatch h
  split at h <;> cases h
  · exact sentence_closed hi _ _ _
  · exact hi.block_closed.map _
  · exact sentence_ifStatement hi
  · exact sentence_whileStatement hi
  · exact sentence_forStatement hi
  · exact sentence_returnStatement hi _

end

/-- A declaration, if it is known whether the keyword of functions begins a named one. -/
def declarationIf (inner : Level) (named : Bool) : Parser (Stmt Unit) :=
  select (fun t => match t.lexeme with
    | .keyword .class_ => some (classDeclaration inner)
    | .keyword .fn =>
      if named then
        some ((fun (name, routine) => Stmt.function name routine) <$>
          namedRoutine inner .functionName)
      else none
    | .keyword .var => some (varDeclaration inner)
    | _ => none) (statement inner)

/-- A declaration is read as what the tokens at its beginning tell that it is. -/
theorem run_strictDeclaration (inner : Level) (ts : List Token) :
    (strictDeclaration inner).run ts = (declarationIf inner (namedFunctionFollows ts)).run ts := rfl

/-- Whether a named function follows is seen from two tokens. -/
theorem namedFunctionFollows_append {ts : List Token} (hne : ts ≠ [])
    (hfn : ∀ line, ts ≠ [⟨.keyword .fn, line⟩]) (more : List Token) :
    namedFunctionFollows (ts ++ more) = namedFunctionFollows ts := by
  obtain ⟨⟨lexeme, line⟩, ts, rfl⟩ := List.exists_cons_of_ne_nil hne
  -- Only after `fn` does the second token count, and then there is one.
  by_cases hlexeme : lexeme = .keyword .fn
  · subst hlexeme
    cases ts with
    | nil => exact absurd rfl (hfn line)
    | cons t ts =>
      obtain ⟨lexeme, line'⟩ := t
      cases lexeme <;> rfl
  · have hother : ∀ us, namedFunctionFollows (⟨lexeme, line⟩ :: us) = false := by
      intro us
      unfold namedFunctionFollows
      split
      · next h =>
        cases h
        exact absurd rfl hlexeme
      · rfl
    rw [List.cons_append, hother, hother]

/-- The keyword of functions alone is no declaration, and is taken. -/
theorem run_keywordFn (inner : Level) (line : Int) :
    ((strictDeclaration inner).run [⟨.keyword .fn, line⟩]).rest = [] ∧
    ∀ a, ((strictDeclaration inner).run [⟨.keyword .fn, line⟩]).outcome ≠ .ok a :=
  ⟨rfl, fun _ h => nomatch h⟩

/-- A declaration ignores what comes after it if that does not change whether a named function follows. -/
theorem ignores_strictDeclaration {inner : Level} {ts more : List Token} (hne : ts ≠ [])
    (hfn : ∀ line, ts ≠ [⟨.keyword .fn, line⟩])
    (h : (declarationIf inner (namedFunctionFollows ts)).Ignores ts more) :
    (strictDeclaration inner).Ignores ts more := by
  unfold Ignores at h ⊢
  rw [run_strictDeclaration, run_strictDeclaration, namedFunctionFollows_append hne hfn]
  exact h

section

variable {inner : Level} (hi : inner.Steady)
include hi

/-- A declaration of a known kind is complete. -/
theorem sentence_declarationIf (named : Bool) : (declarationIf inner named).Sentence := by
  refine Sentence.select (fun t p h => ?_) (sentence_statement hi) (needsToken_statement inner)
  split at h
  · cases h
    exact sentence_classDeclaration hi
  · split at h
    · cases h
      exact (sentence_namedRoutine hi _).map _
    · cases h
  · cases h
    exact sentence_varDeclaration hi
  · cases h

/-- A declaration is complete. -/
theorem sentence_strictDeclaration : (strictDeclaration inner).Sentence := by
  constructor
  · intro ts
    have hpart := (sentence_declarationIf hi (namedFunctionFollows ts)).part ts
    refine ⟨hpart.suffix, fun hne more => ?_, hpart.breaks⟩
    -- The parser looks at two tokens here. Where there is one, and a second would matter, it is taken.
    refine ignores_strictDeclaration ?_ ?_ (hpart.append hne more)
    · rintro rfl
      exact hne rfl
    · rintro line rfl
      exact hne (run_keywordFn inner line).1
  · intro ts more a ha helse
    refine ignores_strictDeclaration ?_ ?_ ((sentence_declarationIf hi _).settled ha helse)
    · rintro rfl
      cases ha
    · rintro line rfl
      exact (run_keywordFn inner line).2 a ha

/-- A declaration that may be given up looks no further than to the next token. -/
theorem part_declaration : (declaration inner).Part :=
  part_recovered (sentence_strictDeclaration hi).part

/-- Declarations look no further than to the next token. -/
theorem part_declarations (stop : Token → Bool) : (declarations inner stop).Part :=
  (part_repeatUntil _ (part_declaration hi)).map _

/-- A block is a piece of an expression, as it ends with a brace. -/
theorem phrase_block : (block inner).Phrase :=
  (part_declarations hi _).phrase_bind
    (fun _ => (phrase_symbol _ (by decide)).bind fun _ => phrase_pure _)
    fun _ => (needsToken_expect _ _).bind _

/-- A block is complete with its closing brace. -/
theorem sentence_block : (block inner).Sentence :=
  (part_declarations hi _).sentence_bind (fun _ => sentence_closing _ _ _)
    fun _ => (needsToken_expect _ _).bind _

end

/-- A parser that is nested too deeply succeeds nowhere, so it is complete. -/
theorem sentence_tooDeep {α : Type} : (tooDeep : Parser α).Sentence :=
  ⟨phrase_tooDeep.part, fun h => nomatch h⟩

/-- All levels look no further than they may, however deep they are. -/
theorem Level.steady_ofDepth (depth : Nat) : (Level.ofDepth depth).Steady := by
  induction depth with
  | zero =>
    exact ⟨phrase_tooDeep, nofun, phrase_tooDeep, sentence_tooDeep, nofun, phrase_tooDeep,
      sentence_tooDeep⟩
  | succ depth ih =>
    exact ⟨phrase_expression ih, needsToken_expression _, phrase_operand ih, sentence_statement ih,
      needsToken_statement _, phrase_block ih, sentence_block ih⟩

/-! ## Programs -/

/-- The last of some items is the last of all of them that they end. -/
theorem getLast?_of_suffix {α : Type} {as bs : List α} (hs : bs <:+ as) (hne : bs ≠ []) :
    as.getLast? = bs.getLast? := by
  obtain ⟨before, rfl⟩ := hs
  exact List.getLast?_append_of_ne_nil before hne

/-- Where skipping ends with a semicolon at the end of the tokens, it goes on with what comes after. -/
theorem skipAfter_closed {last : Token} {ts : List Token} (h : skipAfter last ts = [])
    (hlast : (last :: ts).getLast?.map Token.lexeme = some (.symbol .semicolon)) (more : List Token) :
    skipAfter last (ts ++ more) = more := by
  fun_induction skipAfter last ts with
  -- All was skipped up to the last token, and behind a semicolon nothing more is.
  | case1 last =>
    have hsemicolon : last.lexeme = .symbol .semicolon := Option.some.inj hlast
    cases more with
    | nil => rfl
    | cons t more => rw [List.nil_append, skipAfter, if_pos (.inl hsemicolon)]
  | case2 => cases h
  -- Nothing was skipped in vain, so the last token is still to come.
  | case3 last t ts hstop ih =>
    rw [List.cons_append, skipAfter, if_neg hstop]
    rw [List.getLast?_cons_cons] at hlast
    exact ih h hlast

/-- If skipping goes to the end and that is a semicolon, then reading goes on with whatever comes after it.
-/
theorem resume_closed {ts : List Token} (h : resume ts = [])
    (hlast : ts.getLast?.map Token.lexeme = some (.symbol .semicolon)) (more : List Token) :
    resume (ts ++ more) = more := by
  cases ts with
  | nil => cases hlast
  | cons t ts => exact skipAfter_closed h hlast more

/-- A declaration takes a token, also one that is given up. -/
theorem progress_declaration (inner : Level) : (declaration inner).Progress :=
  progress_recovered (progress_strictDeclaration inner)

/-- The declarations of a program, with none in the place of those that were given up. -/
def optionalDeclarations (inner : Level) : Parser (List (Option (Stmt Unit))) :=
  repeatUntil (fun _ => false) (declaration inner) (progress_declaration inner)

/-- There are no declarations without tokens. -/
theorem run_optionalDeclarations_nil (inner : Level) :
    (optionalDeclarations inner).run [] = ⟨.ok [], [], []⟩ :=
  run_repeatUntil_nil

/-- Declarations are the first of them and then the others. -/
theorem run_optionalDeclarations_cons (inner : Level) (t : Token) (ts : List Token) :
    (optionalDeclarations inner).run (t :: ts) =
      (declaration inner >>= fun o => (o :: ·) <$> optionalDeclarations inner).run (t :: ts) :=
  run_repeatUntil_of_not_stop rfl ts

section

variable {inner : Level} (hi : inner.Steady) {n : Nat} (hh : inner.Halts n)
include hi hh

/-- What comes after some tokens does not change what a declaration makes of them, if nothing is reported
at their end and either nothing is reported at all or they end with a semicolon. -/
theorem ignores_declaration {ts more : List Token}
    (hdeep : ((declaration inner).run ts).outcome ≠ .error .tooDeep)
    (hend : ∀ e ∈ ((declaration inner).run ts).errors, e.place ≠ none)
    (hclosed : ((declaration inner).run ts).errors = [] ∨
      ts.getLast?.map Token.lexeme = some (.symbol .semicolon))
    (helse : startsWith (.keyword .else_) more = false) : (declaration inner).Ignores ts more := by
  have hstrict := sentence_strictDeclaration hi
  unfold declaration at hdeep hend hclosed ⊢
  rcases houtcome : ((strictDeclaration inner).run ts).outcome with (_ | _) | a
  · rw [recovered_of_broken houtcome] at hend hclosed
    -- An error is reported, so the tokens end with a semicolon.
    have hlast := hclosed.resolve_left ((halts_strictDeclaration hh ts).1 houtcome)
    have hpart := hstrict.part ts
    -- The parser breaks off before the last token, as the end is not reported.
    have hmid : ((strictDeclaration inner).run ts).rest ≠ [] := by
      intro hnil
      rcases hpart.breaks houtcome hnil with ⟨e, he, hplace⟩ | ⟨t, ht, hne⟩
      · exact hend e he hplace
      · rw [Option.mem_def.1 ht] at hlast
        exact hne (Option.some.inj hlast)
    refine ignores_recovered (hpart.append hmid more) fun _ => ?_
    -- Skipping ends before the boundary, or at it, after the semicolon.
    by_cases hresume : resume ((strictDeclaration inner).run ts).rest = []
    · rw [getLast?_of_suffix hpart.suffix hmid] at hlast
      rw [resume_closed hresume hlast, hresume, List.nil_append]
    · exact resume_append hresume more
  · rw [recovered_of_ne_broken (by rw [houtcome]; nofun), houtcome] at hdeep
    exact absurd rfl hdeep
  · refine ignores_recovered (hstrict.settled houtcome helse) fun hbroken => ?_
    rw [houtcome] at hbroken
    cases hbroken

/-- Declarations before and after a boundary: those before it, and then those after it. -/
theorem run_optionalDeclarations_append {ts more : List Token} {os : List (Option (Stmt Unit))}
    (hok : ((optionalDeclarations inner).run ts).outcome = .ok os)
    (hend : ∀ e ∈ ((optionalDeclarations inner).run ts).errors, e.place ≠ none)
    (hclosed : ((optionalDeclarations inner).run ts).errors = [] ∨
      ts.getLast?.map Token.lexeme = some (.symbol .semicolon))
    (helse : startsWith (.keyword .else_) more = false) :
    (optionalDeclarations inner).run (ts ++ more) =
      ((optionalDeclarations inner).run more).after os ((optionalDeclarations inner).run ts).errors := by
  induction hlength : ts.length using Nat.strongRecOn generalizing ts os with
  | _ n ih =>
    cases ts with
    | nil =>
      rw [run_optionalDeclarations_nil] at hok ⊢
      cases hok
      exact (Parsed.after_nil _).symm
    | cons t ts =>
      rw [run_optionalDeclarations_cons] at hok hend hclosed ⊢
      obtain ⟨o, ho, hlater⟩ := ok_of_bind hok
      rw [run_bind_ok ho, run_map] at hend hclosed ⊢
      rw [run_map] at hlater
      simp only at hend hclosed ⊢
      obtain ⟨ps, hps, rfl⟩ := map_eq_ok_iff.1 hlater
      -- The first declaration ends where it did, and the others come after it.
      have hfirst : (declaration inner).run (t :: ts ++ more) =
          ((declaration inner).run (t :: ts)).before more :=
        ignores_declaration hi hh (by rw [ho]; nofun) (fun e he => hend e (List.mem_append_left _ he))
          (hclosed.imp_left fun h => (List.append_eq_nil_iff.1 h).1) helse
      have hfirst' : ((declaration inner).run (t :: ts ++ more)).outcome = .ok o := by
        rw [hfirst]
        exact ho
      -- A declaration takes a token, so the induction applies to those after it.
      have hshorter : ((declaration inner).run (t :: ts)).rest.length < n := by
        rw [← hlength]
        exact progress_declaration inner _ o (List.cons_ne_nil t ts) ho
      have hothers := ih _ hshorter hps (fun e he => hend e (List.mem_append_right _ he)) ?_ rfl
      · rw [List.cons_append, run_optionalDeclarations_cons, ← List.cons_append, run_bind_ok hfirst',
          run_map, hfirst]
        simp only [Parsed.before, hothers]
        exact Parsed.after_cons _ o ps _ _
      · -- Where there are more declarations, the last token is the last one of theirs.
        rcases hclosed with h | h
        · exact .inl (List.append_eq_nil_iff.1 h).2
        · by_cases hrest : ((declaration inner).run (t :: ts)).rest = []
          · rw [hrest, run_optionalDeclarations_nil]
            exact .inl rfl
          · rw [getLast?_of_suffix (part_declaration hi (t :: ts)).suffix hrest] at h
            exact .inr h

end

/-- The programs of tokens and of the tokens after them are the program of all of them, and their errors
are its errors, if nothing is reported at the end of the first, if either nothing is reported there at
all or they end with a semicolon, and if the others do not begin with an `else`. -/
theorem parseProgram_append_of_boundary {depth : Nat} {ts us : List Token}
    (hdeep : (parseProgram depth ts).outcome ≠ .error .tooDeep)
    (hend : ∀ e ∈ (parseProgram depth ts).errors, e.place ≠ none)
    (hclosed : (parseProgram depth ts).errors = [] ∨
      ts.getLast?.map Token.lexeme = some (.symbol .semicolon))
    (helse : startsWith (.keyword .else_) us = false) :
    ∃ program, (parseProgram depth ts).outcome = .ok program ∧
      (parseProgram depth (ts ++ us)).outcome =
        (parseProgram depth us).outcome.map (program ++ ·) ∧
      (parseProgram depth (ts ++ us)).errors =
        (parseProgram depth ts).errors ++ (parseProgram depth us).errors := by
  have hrun : ∀ vs, parseProgram depth vs =
      (List.filterMap id <$> optionalDeclarations (Level.ofDepth depth)).run vs := fun _ => rfl
  -- A declaration that breaks off is given up, so the reading of a program ends, or it is too deep.
  have hbroken : ((optionalDeclarations (Level.ofDepth depth)).run ts).outcome ≠ .error .broken :=
    repeatUntil_ne_broken (progress_declaration (Level.ofDepth depth))
      (recovered_ne_broken (strictDeclaration (Level.ofDepth depth))) ts
  rw [hrun, run_map] at hdeep hend hclosed ⊢
  rw [hrun, hrun, run_map, run_map]
  rcases hos : ((optionalDeclarations (Level.ofDepth depth)).run ts).outcome with (_ | _) | os
  · exact absurd hos hbroken
  · rw [hos] at hdeep
    exact absurd rfl hdeep
  · have happend := run_optionalDeclarations_append (Level.steady_ofDepth depth)
      (Level.halts_ofDepth depth) hos hend hclosed helse
    refine ⟨os.filterMap id, rfl, ?_, ?_⟩
    · rw [happend, Parsed.after]
      cases ((optionalDeclarations (Level.ofDepth depth)).run us).outcome with
      | error halt => rfl
      | ok ps => exact congrArg Except.ok List.filterMap_append
    · rw [happend, Parsed.after]

/-- A block with a broken declaration in it, and a broken statement after it. -/
def brokenStatements : List Token :=
  [sym .leftBrace 1, word .var 1, sym .equal 1, word .nil 1, sym .semicolon 1, sym .rightBrace 1,
    word .print 2, sym .semicolon 2]

/-- A statement that begins on the next line. -/
def nextStatement : List Token := [word .print 3, word .nil 3, sym .semicolon 3]

/-- Two statements are broken, and the third is read as if they were not there. -/
theorem parseProgram_append_brokenStatements :
    (parseProgram 8 brokenStatements).errors =
        [⟨some (sym .equal 1), .variableName⟩, ⟨some (sym .semicolon 2), .expression⟩] ∧
      ∃ program, (parseProgram 8 brokenStatements).outcome = .ok program ∧
        (parseProgram 8 (brokenStatements ++ nextStatement)).outcome =
          (parseProgram 8 nextStatement).outcome.map (program ++ ·) ∧
        (parseProgram 8 (brokenStatements ++ nextStatement)).errors =
          (parseProgram 8 brokenStatements).errors ++ (parseProgram 8 nextStatement).errors := by
  have herrors : (parseProgram 8 brokenStatements).errors =
      [⟨some (sym .equal 1), .variableName⟩, ⟨some (sym .semicolon 2), .expression⟩] := by
    decide +kernel
  have hend : ∀ e ∈ (parseProgram 8 brokenStatements).errors, e.place ≠ none := by
    rw [herrors]
    decide
  exact ⟨herrors, parseProgram_append_of_boundary (parseProgram_not_tooDeep (by decide)) hend
    (.inr (by decide)) (by decide)⟩

end Grammar

end Treewalk
