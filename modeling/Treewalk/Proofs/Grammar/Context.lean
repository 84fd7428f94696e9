import Treewalk.Proofs.Grammar.Boundary
import Treewalk.Proofs.Grammar.Completeness

/-!
# Where a part of a phrase begins

When a parser has read the tokens before a part of a phrase, it goes on as the parser of that part, and
finishes the phrase with whatever that parser gives (`Enters`). So what is known of a parser for the
tokens that come next is known of every parser that has entered it.

`Opens d p ts d' q` says that a phrase of the kind `p` can begin with the tokens `ts` and a part of the
kind `q`: one rule for each part of each phrase of the grammar. `Reaches` leads through any number of
phrases in one another, up to the declarations of a body or a block. Each step is entered
(`Opens.enters`), and so is what is reached (`Reaches.enters`).
-/

namespace Treewalk.Parser

open Treewalk.Grammar (Separated sym)

variable {α β γ : Type}

/-- Parsers that make the same of all tokens are the same. -/
theorem ext_run {p q : Parser α} (h : ∀ ts, p.run ts = q.run ts) : p = q := by
  obtain ⟨run, shrinks⟩ := p
  obtain rfl : run = q.run := funext h
  rfl

/-- A result that is given takes no tokens. -/
theorem pure_bind_run (a : α) (f : α → Parser β) (ts : List Token) :
    (pure a >>= f).run ts = (f a).run ts := by
  rw [run_bind_ok (show ((pure a : Parser α).run ts).outcome = .ok a from rfl)]
  rfl

/-- Parsers may be grouped as one likes. -/
theorem bind_assoc_run (p : Parser α) (f : α → Parser β) (g : β → Parser γ) (ts : List Token) :
    (p >>= f >>= g).run ts = (p >>= fun a => f a >>= g).run ts := by
  -- An error of any of the three is the error of both groupings; otherwise each goes on where the last has
  -- stopped.
  cases hp : (p.run ts).outcome with
  | error halt =>
    have hpf : ((p >>= f).run ts).outcome = .error halt := by rw [run_bind_error hp]
    rw [run_bind_error hpf, run_bind_error hp, run_bind_error hp]
  | ok a =>
    have hrun := run_bind_ok (f := f) hp
    have hlater := run_bind_ok (f := fun a => f a >>= g) hp
    cases hf : ((f a).run (p.run ts).rest).outcome with
    | error halt =>
      have hpf : ((p >>= f).run ts).outcome = .error halt := by rw [hrun]; exact hf
      rw [run_bind_error hpf, hlater, run_bind_error hf, hrun]
    | ok b =>
      have hpf : ((p >>= f).run ts).outcome = .ok b := by rw [hrun]; exact hf
      rw [run_bind_ok hpf, hlater, run_bind_ok hf, hrun]
      simp only [List.append_assoc]

/-- The laws hold since a run is all there is to a parser. -/
instance : LawfulMonad Parser := LawfulMonad.mk' _
  (fun p => ext_run fun ts => by
    rw [run_map]
    rcases p.run ts with ⟨_ | _, rest, errors⟩ <;> rfl)
  (fun a f => ext_run (pure_bind_run a f))
  (fun p f g => ext_run (bind_assoc_run p f g))

/-! ## Parsers inside parsers -/

/-- After some tokens a parser goes on as another one, if the tokens that come next fit, and finishes
with what that one gives. -/
def Enters (p : Parser α) (before : List Token) (q : Parser β) (Fit : List Token → Prop) : Prop :=
  ∃ finish : β → Parser α, ∀ ts, Fit ts → p.run (before ++ ts) = (q >>= finish).run ts

variable {p : Parser α} {q : Parser β} {before : List Token} {Fit : List Token → Prop}

/-- A parser enters itself with no tokens. -/
theorem Enters.refl (p : Parser α) (Fit : List Token → Prop) : p.Enters [] p Fit :=
  ⟨pure, fun ts _ => by rw [bind_pure]; rfl⟩

/-- A parser that is entered enters others. -/
theorem Enters.trans {r : Parser γ} {further : List Token} {Fit' : List Token → Prop}
    (h : p.Enters before q Fit) (h' : q.Enters further r Fit')
    (hfit : ∀ ts, Fit' ts → Fit (further ++ ts)) : p.Enters (before ++ further) r Fit' := by
  obtain ⟨finish, hfinish⟩ := h
  obtain ⟨finish', hfinish'⟩ := h'
  refine ⟨fun c => finish' c >>= finish, fun ts hts => ?_⟩
  rw [List.append_assoc, hfinish _ (hfit ts hts), run_bind_congr (hfinish' ts hts) finish, bind_assoc]

/-- A parser that does the same as one that enters another enters it too. -/
theorem Enters.congr {p' : Parser α} {before' : List Token} (h : p.Enters before q Fit)
    (hrun : ∀ ts, Fit ts → p'.run (before' ++ ts) = p.run (before ++ ts)) :
    p'.Enters before' q Fit := by
  obtain ⟨finish, hfinish⟩ := h
  exact ⟨finish, fun ts hts => (hrun ts hts).trans (hfinish ts hts)⟩

/-- What comes after a parser has no part in what it enters. -/
theorem Enters.bind (h : p.Enters before q Fit) (f : α → Parser γ) :
    (p >>= f).Enters before q Fit := by
  obtain ⟨finish, hfinish⟩ := h
  refine ⟨fun b => finish b >>= f, fun ts hts => ?_⟩
  rw [run_bind_congr (hfinish ts hts) f, bind_assoc]

/-- What is made of its result has none either. -/
theorem Enters.map (h : p.Enters before q Fit) (f : α → γ) : (f <$> p).Enters before q Fit := by
  rw [← bind_pure_comp]
  exact h.bind _

/-- What is read first stands before what the next parser enters. -/
theorem Enters.after {o : Parser γ} {f : γ → Parser α} {c : γ} {first : List Token}
    (ho : ∀ ts, Fit ts → o.Reads (first ++ (before ++ ts)) c (before ++ ts))
    (h : (f c).Enters before q Fit) : (o >>= f).Enters (first ++ before) q Fit := by
  refine h.congr fun ts hts => ?_
  rw [List.append_assoc, run_bind_reads (ho ts hts)]

/-- A selection enters what the parser enters that it chooses. -/
theorem Enters.select {choose : Token → Option (Parser α)} {otherwise : Parser α} {t : Token}
    (hc : choose t = some p) (h : p.Enters before q Fit) :
    (Parser.select choose otherwise).Enters (t :: before) q Fit :=
  h.congr fun ts _ => run_select_some hc (before ++ ts)

/-- A parser that looks out for a lexeme enters what it holds, where that lexeme is not next. -/
theorem Enters.unlessNext {lexeme : Lexeme} {nothing : α}
    (hne : ∀ ts, Fit ts → startsWith lexeme (before ++ ts) = false) (h : p.Enters before q Fit) :
    (unlessNext lexeme nothing p).Enters before q Fit :=
  h.congr fun ts hts => run_unlessNext (hne ts hts)

/-- A symbol that must come. -/
theorem Enters.symbol {s : Symbol} {fault : SyntaxFault} {f : Int → Parser α} {l : Int}
    (h : (f l).Enters before q Fit) :
    (Parser.symbol s fault >>= f).Enters (⟨.symbol s, l⟩ :: before) q Fit :=
  h.congr fun _ _ => run_bind_reads (reads_symbol.2 rfl)

/-- A name is read first. -/
theorem Enters.name {fault : SyntaxFault} {f : Name → Parser α} {n : Name}
    (h : (f n).Enters before q Fit) :
    (Parser.name fault >>= f).Enters (⟨.identifier n.text, n.line⟩ :: before) q Fit :=
  h.congr fun _ _ => run_bind_reads (reads_name.2 rfl)

/-! ## Loops -/

variable {stop : Token → Bool} {item : Parser α} {progress : item.Progress}

/-- A loop over items enters what its item enters. -/
theorem Enters.repeatUntil (h : item.Enters before q Fit)
    (hstop : ∀ ts, Fit ts → ∃ t us, before ++ ts = t :: us ∧ stop t = false) :
    (Parser.repeatUntil stop item progress).Enters before q Fit := by
  refine (h.bind fun a => (a :: ·) <$> Parser.repeatUntil stop item progress).congr fun ts hts => ?_
  obtain ⟨t, us, htokens, ht⟩ := hstop ts hts
  rw [htokens]
  exact run_repeatUntil_of_not_stop ht us

/-- After an item that is read the loop goes on. -/
theorem enters_afterItem {a : α}
    (h : ∀ ts, Fit ts → item.Reads (before ++ ts) a ts)
    (hstop : ∀ ts, Fit ts → ∃ t us, before ++ ts = t :: us ∧ stop t = false) :
    (Parser.repeatUntil stop item progress).Enters before (Parser.repeatUntil stop item progress)
      Fit := by
  refine ((Enters.refl _ Fit).map (a :: ·)).congr fun ts hts => ?_
  obtain ⟨t, us, htokens, ht⟩ := hstop ts hts
  have hread := h ts hts
  rw [htokens] at hread ⊢
  rw [run_repeatUntil_of_not_stop ht, run_bind_reads hread]
  rfl

/-- After some items and a comma, the next item is entered. -/
theorem enters_afterComma {Item : List Token → α → Prop} (tooMany : SyntaxFault)
    {Ends : List Token → Prop}
    (hitem : ∀ ts a rest, Item ts a → Ends rest → item.Reads (ts ++ rest) a rest)
    (hcomma : ∀ l ts, Ends (sym .comma l :: ts)) {ts : List Token} {as : List α}
    (h : Separated Item ts as) (count : as.length < maxArguments) (l : Int)
    (Fit : List Token → Prop) :
    (commaSeparated item tooMany).Enters (ts ++ [sym .comma l]) item Fit := by
  -- There is room for one more item, so it is parsed without a report.
  have hanother : (anotherItem item tooMany as.toArray).Enters [] item Fit :=
    ((Enters.refl item Fit).bind _).congr fun us _ =>
      run_bind_reads ((reads_noteIf (u := ())).2 ⟨by simpa using count, rfl⟩)
  refine ((hanother.bind fun items => extend (afterComma item tooMany) items).bind
    fun items => pure items.toList).congr fun us _ => ?_
  rw [List.append_assoc]
  exact (run_commaSeparated tooMany hitem hcomma h (Nat.le_of_lt count) (hcomma l us)).trans
    (run_bind_congr (run_extend_some (if_pos rfl) us) _)

end Treewalk.Parser

namespace Treewalk.Grammar

open Treewalk.Parser

/-! ## Operators after their first operand -/

/-- How a level goes on from an expression that it has read. -/
def Precedence.goOn (inner : Level) (p : Precedence) (e : Expr Unit) : Parser (Expr Unit) :=
  match p with
  | .call => extend (afterCallee inner) e
  | p => extend (p.afterOperand inner) e

/-- Where operators join, an operand goes on with them. -/
theorem Precedence.goOn_of_joins (inner : Level) {p : Precedence} (h : p.joins = true)
    (e : Expr Unit) : p.goOn inner e = extend (p.afterOperand inner) e := by
  cases p with
  | call | assignment | operand | primary => cases h
  | _ => rfl

/-- The levels at which more may follow what was read. -/
def Precedence.GoesOn (p : Precedence) : Prop := p = .call ∨ p.joins = true

/-- An operand and what it goes on with is an expression of its level. -/
theorem parser_eq_of_goesOn (inner : Level) {p : Precedence} (h : p.GoesOn) :
    p.parser inner = p.tighter.parser inner >>= p.goOn inner := by
  rcases h with rfl | h
  · rfl
  · rw [parser_eq_of_joins inner h]
    congr 1
    funext e
    rw [Precedence.goOn_of_joins inner h]

/-- A round of a level of operators. -/
theorem run_goOn_join (inner : Level) {p : Precedence} {t : Token}
    {f : Expr Unit → Expr Unit → Expr Unit} (hop : p.join? t = some f) (left : Expr Unit)
    (ts : List Token) :
    (p.goOn inner left).run (t :: ts) =
      ((f left <$> p.tighter.parser inner) >>= p.goOn inner).run ts := by
  have hj := joins_of_join? hop
  have hround := Precedence.afterOperand_of_join? hop inner left
  rw [Precedence.goOn_of_joins inner hj, run_extend_some hround, funext (Precedence.goOn_of_joins inner hj)]

/-- What the parser of a level does after the tokens of an expression, where more may follow them. -/
def Continues (inner : Level) : (p : Phrase) → List Token → p.Tree → Prop
  | .expression p, ts, e => p.GoesOn → ∀ rest, Stops p.tighter rest →
      (p.parser inner).run (ts ++ rest) = (p.goOn inner e).run rest
  | _, _, _ => True

/-- Whatever the grammar derives a parser may go on with, by induction on the derivation. -/
theorem Derives.continues {d : Nat} {p : Phrase} {ts : List Token} {t : p.Tree}
    (h : Derives true d p ts t) : Continues (Level.ofDepth d) p ts t := by
  -- The loop of a level reads from the left, as the rules are nested: what stands before the last round
  -- is read by induction, and the token of that round makes the loop take it.
  induction h with
  -- Nothing goes on after these at their own level, only at a looser one.
  | atom | grouping | lambda | unary | assign | set => rintro (h | h) <;> cases h
  | callNothing h ih =>
    intro _ rest hs
    rw [List.append_assoc]
    refine (ih (.inl rfl) (_ :: _) (stops_of_binds?_call rfl)).trans ?_
    exact (run_extend_some rfl _).trans (run_bind_reads (reads_noArguments rest))
  | @call d ts us f as l line h ha count ih iha =>
    intro _ rest hs
    -- The arguments end with the parenthesis, so what comes after them does not matter.
    have harguments : (callArguments (Level.ofDepth (d + 1)) f).Reads
        (us ++ [sym .rightParen line] ++ rest) (.call f line as) rest :=
      reads_callArguments (Level.ofDepth (d + 1)) ha.readsPhrase ha.begins count rest
    rw [List.append_assoc, List.append_assoc]
    rw [List.append_assoc] at harguments
    refine (ih (.inl rfl) (_ :: _) (stops_of_binds?_call rfl)).trans ?_
    exact (run_extend_some rfl _).trans (run_bind_reads harguments)
  | @get d ts e n l h ih =>
    intro _ rest hs
    rw [List.append_assoc]
    refine (ih (.inl rfl) (_ :: _) (stops_of_binds?_call rfl)).trans ?_
    exact (run_extend_some rfl _).trans
      (run_bind_reads (reads_map.2 ⟨n, reads_name.2 rfl, rfl⟩))
  | join hl hop hr ihl ihr =>
    intro hp rest hs
    rw [List.append_assoc]
    refine (ihl hp (_ :: _) (stops_of_join? hop _)).trans ?_
    refine (run_goOn_join _ hop _ _).trans (run_bind_reads ?_)
    exact reads_map.2 ⟨_, ReadsThrough.reads hr.readsPhrase hs, rfl⟩
  | tighter h ih =>
    intro hp rest hs
    rw [parser_eq_of_goesOn _ hp]
    exact run_bind_reads (ReadsThrough.reads h.readsPhrase hs)
  | _ => trivial

/-! ## Parts of phrases -/

/-- The beginning of a phrase, up to a part of it: the kinds of the two with their depths, and the tokens
before the part. There is one rule for each part of each phrase of the grammar. -/
inductive Opens : Nat → Phrase → List Token → Nat → Phrase → Prop
  -- Expressions.
  | tighter {d : Nat} {p : Precedence} : Opens d (.expression p) [] d (.expression p.tighter)
  | grouping {d : Nat} {l : Int} :
    Opens (d + 1) (.expression .primary) [sym .leftParen l] d (.expression .assignment)
  | lambda {d : Nat} {l : Int} : Opens d (.expression .primary) [word .fn l] d .routine
  | arguments {d : Nat} {ts : List Token} {f : Expr Unit} {l : Int}
    (h : Derives true (d + 1) (.expression .call) ts f) :
    Opens (d + 1) (.expression .call) (ts ++ [sym .leftParen l]) d .arguments
  | firstArgument {d : Nat} : Opens d .arguments [] d (.expression .assignment)
  | argument {d : Nat} {ts : List Token} {as : List (Expr Unit)} {l : Int}
    (h : Derives true d .arguments ts as) (count : as.length < maxArguments) :
    Opens d .arguments (ts ++ [sym .comma l]) d (.expression .assignment)
  | unary {d : Nat} {t : Token} {op : UnaryOp} (hop : prefixOp? t = some op) :
    Opens (d + 1) (.expression .operand) [t] d (.expression .operand)
  | join {d : Nat} {p : Precedence} {ts : List Token} {t : Token}
    {f : Expr Unit → Expr Unit → Expr Unit} {left : Expr Unit}
    (h : Derives true d (.expression p) ts left) (hop : p.join? t = some f) :
    Opens d (.expression p) (ts ++ [t]) d (.expression p.tighter)
  | assigned {d : Nat} {ts : List Token} {target : Expr Unit} {l : Int}
    (h : Derives true (d + 1) (.expression .disjunction) ts target) :
    Opens (d + 1) (.expression .assignment) (ts ++ [sym .equal l]) d (.expression .assignment)
  -- Routines.
  | body {d : Nat} {ts : List Token} {ns : List Name} {l₁ l₂ l₃ : Int} (h : Parameters ts ns) :
    Opens (d + 1) .routine (sym .leftParen l₁ :: (ts ++ [sym .rightParen l₂, sym .leftBrace l₃]))
      d .declarations
  | method {d : Nat} {ts : List Token} {ms : List (Name × Routine Unit)} {n : Name}
    (h : Derives true d .methods ts ms) : Opens d .methods (ts ++ [ident n]) d .routine
  -- Statements.
  | expression {d : Nat} {k : Bool} : Opens d (.statement k) [] d (.expression .assignment)
  | print {d : Nat} {k : Bool} {l : Int} :
    Opens d (.statement k) [word .print l] d (.expression .assignment)
  | return {d : Nat} {k : Bool} {l : Int} :
    Opens d (.statement k) [word .return_ l] d (.expression .assignment)
  | block {d : Nat} {k : Bool} {l : Int} :
    Opens (d + 1) (.statement k) [sym .leftBrace l] d .declarations
  | ifCondition {d : Nat} {k : Bool} {l₁ l₂ : Int} :
    Opens d (.statement k) [word .if_ l₁, sym .leftParen l₂] d (.expression .assignment)
  | onTrue {d : Nat} {ts : List Token} {c : Expr Unit} {k k' : Bool} {l₁ l₂ l₃ : Int}
    (hc : Derives true (d + 1) (.expression .assignment) ts c) :
    Opens (d + 1) (.statement k) (word .if_ l₁ :: sym .leftParen l₂ :: (ts ++ [sym .rightParen l₃]))
      d (.statement k')
  | onFalse {d : Nat} {ts us : List Token} {c : Expr Unit} {s : Stmt Unit} {k k' : Bool}
    {l₁ l₂ l₃ l₄ : Int} (hc : Derives true (d + 1) (.expression .assignment) ts c)
    (h : Derives true d (.statement false) us s) :
    Opens (d + 1) (.statement k) (word .if_ l₁ :: sym .leftParen l₂ ::
      (ts ++ sym .rightParen l₃ :: (us ++ [word .else_ l₄]))) d (.statement k')
  | whileCondition {d : Nat} {k : Bool} {l₁ l₂ : Int} :
    Opens d (.statement k) [word .while_ l₁, sym .leftParen l₂] d (.expression .assignment)
  | whileBody {d : Nat} {ts : List Token} {c : Expr Unit} {k k' : Bool} {l₁ l₂ l₃ : Int}
    (hc : Derives true (d + 1) (.expression .assignment) ts c) :
    Opens (d + 1) (.statement k)
      (word .while_ l₁ :: sym .leftParen l₂ :: (ts ++ [sym .rightParen l₃])) d (.statement k')
  | loopStart {d : Nat} {k : Bool} {l₁ l₂ : Int} :
    Opens d (.statement k) [word .for_ l₁, sym .leftParen l₂] d .loopStart
  | loopCondition {d : Nat} {ts : List Token} {i : Option (Stmt Unit)} {k : Bool} {l₁ l₂ : Int}
    (hi : Derives true d .loopStart ts i) :
    Opens d (.statement k) (word .for_ l₁ :: sym .leftParen l₂ :: (ts ++ []))
      d (.expression .assignment)
  | loopStep {d : Nat} {ts us : List Token} {i : Option (Stmt Unit)} {c : Option (Expr Unit)} {k : Bool}
    {l₁ l₂ l₃ : Int} (hi : Derives true d .loopStart ts i) (hc : Derives true d .clause us c) :
    Opens d (.statement k)
      (word .for_ l₁ :: sym .leftParen l₂ :: (ts ++ (us ++ [sym .semicolon l₃])))
      d (.expression .assignment)
  | loopBody {d : Nat} {ts us vs : List Token} {i : Option (Stmt Unit)} {c n : Option (Expr Unit)}
    {k k' : Bool} {l₁ l₂ l₃ l₄ : Int} (hi : Derives true (d + 1) .loopStart ts i)
    (hc : Derives true (d + 1) .clause us c) (hn : Derives true (d + 1) .clause vs n) :
    Opens (d + 1) (.statement k) (word .for_ l₁ :: sym .leftParen l₂ ::
      (ts ++ (us ++ sym .semicolon l₃ :: (vs ++ [sym .rightParen l₄])))) d (.statement k')
  | startVar {d : Nat} {n : Name} {l l' : Int} :
    Opens d .loopStart [word .var l, ident n, sym .equal l'] d (.expression .assignment)
  | startExpression {d : Nat} : Opens d .loopStart [] d (.expression .assignment)
  -- Declarations.
  | var {d : Nat} {n : Name} {k : Bool} {l l' : Int} :
    Opens d (.declaration k) [word .var l, ident n, sym .equal l'] d (.expression .assignment)
  | function {d : Nat} {n : Name} {k : Bool} {l : Int} :
    Opens d (.declaration k) [word .fn l, ident n] d .routine
  | class {d : Nat} {n : Name} {k : Bool} {l l' : Int} :
    Opens d (.declaration k) [word .class_ l, ident n, sym .leftBrace l'] d .methods
  | statement {d : Nat} {k : Bool} : Opens d (.declaration k) [] d (.statement k)

/-- The parsers of a kind of phrase. The name of a routine stands in messages only, and declarations are
read up to a closing brace or to the end. -/
inductive ParserOf (inner : Level) : (p : Phrase) → Parser p.Tree → Prop
  | expression (p : Precedence) : ParserOf inner (.expression p) (p.parser inner)
  | arguments :
    ParserOf inner .arguments (commaSeparated (Grammar.expression inner) .tooManyArguments)
  | routine (name : String) : ParserOf inner .routine (Grammar.routine inner name)
  | methods : ParserOf inner .methods
      (repeatUntil (fun t => decide (t.lexeme = .symbol .rightBrace))
        (namedRoutine inner .methodName) (progress_namedRoutine inner _))
  | loopStart : ParserOf inner .loopStart (Grammar.loopStart inner)
  | statement (k : Bool) : ParserOf inner (.statement k) (Grammar.statement inner)
  | declaration (k : Bool) : ParserOf inner (.declaration k) (strictDeclaration inner)
  | declarations (stop : Token → Bool) (h : ∀ t, stop t = true → t.lexeme = .symbol .rightBrace) :
    ParserOf inner .declarations (Grammar.declarations inner stop)

/-- The tokens that can come where a phrase begins, as far as parsers look: no `else` comes before
declarations, as it would belong to what stands before them. -/
def Fits : Phrase → List Token → Prop
  | .declarations, ts => startsWith (.keyword .else_) ts = false
  | p, ts => Begins p ts

/-- Where a part fits after the tokens before it, the phrase fits. -/
theorem Opens.fits {d d' : Nat} {p q : Phrase} {ts us : List Token} (h : Opens d p ts d' q)
    (hus : Fits q us) : Fits p (ts ++ us) := by
  -- Either the phrase begins with a token of its own, which settles it, or it begins like the phrase with
  -- which it opens.
  cases h with
  | tighter => exact Begins.of_tighter hus
  | grouping => exact ⟨_, _, rfl, rfl, nofun, fun _ => rfl⟩
  | lambda => exact ⟨_, _, rfl, rfl, fun _ => hus, fun _ => rfl⟩
  | arguments h => exact (h.begins.append id _).append id _
  | firstArgument =>
    obtain ⟨t, vs, rfl, hbegins, -⟩ := hus
    exact ⟨t, vs, rfl, hbegins⟩
  | argument h =>
    obtain ⟨t, vs, rfl, hbegins⟩ := h.begins
    exact ⟨t, _, rfl, hbegins⟩
  | unary hop =>
    obtain ⟨hbegins, hfn⟩ := beginsExpression_of_prefixOp? hop
    exact ⟨_, _, rfl, hbegins, fun h => absurd h hfn, by rintro (h | h) <;> cases h⟩
  | join h => exact (h.begins.append id _).append id _
  | assigned h =>
    rw [List.append_assoc]
    exact h.begins.append (by rintro (h | h) <;> cases h) _
  | body => rfl
  | method => trivial
  | @expression d k =>
    have hstatement := Begins.statement hus k []
    rwa [List.append_nil] at hstatement
  | print | «return» | block | ifCondition | onTrue | onFalse | whileCondition | whileBody | loopStart |
      loopCondition | loopStep | loopBody =>
    refine ⟨_, _, rfl, ?_, ?_, ?_, ?_, nofun⟩ <;> exact nofun
  | startVar | startExpression => trivial
  | var | function | «class» => exact ⟨_, _, rfl, nofun, nofun⟩
  | statement =>
    obtain ⟨t, vs, rfl, hbrace, helse, -⟩ := hus
    exact ⟨t, vs, rfl, hbrace, helse⟩

/-! ## Entering a part -/

/-- The declarations of a block are entered at its beginning. -/
theorem enters_block (inner : Level) (Fit : List Token → Prop) :
    ∃ Q, ParserOf inner .declarations Q ∧ (block inner).Enters [] Q Fit :=
  ⟨_, .declarations _ fun _ ht => of_decide_eq_true ht, (Enters.refl _ _).bind _⟩

/-- What stands after the methods of a class that were read is one more method, or their end. -/
theorem enters_afterMethods {d : Nat} {ts : List Token} {ms : List (Name × Routine Unit)}
    (h : Derives true d .methods ts ms) {P : Parser (List (Name × Routine Unit))}
    (hP : ParserOf (Level.ofDepth d) .methods P) : P.Enters ts P fun _ => True := by
  cases hP
  induction ms generalizing ts with
  | nil =>
    cases h
    exact .refl _ _
  | cons m ms ih =>
    -- A method is read as an item of the loop, which is then entered again.
    cases h with
    | @method d ts us n r ms h later =>
      have hitem : ∀ rest, True → (namedRoutine (Level.ofDepth d) .methodName).Reads
          (ident n :: ts ++ rest) (n, r) rest := fun rest _ =>
        reads_bind.2 ⟨n, _, reads_name.2 rfl,
          reads_bind.2 ⟨r, _, h.readsPhrase _ rest, reads_pure.2 ⟨rfl, rfl⟩⟩⟩
      exact (enters_afterItem hitem fun rest _ => ⟨_, _, rfl, rfl⟩).trans (ih later)
        fun _ _ => trivial

/-- No statement but that of an expression begins like an expression. -/
theorem enters_statement_expression (inner : Level) :
    (statement inner).Enters [] (expression inner) (Begins (.expression .assignment)) :=
  ((Enters.refl _ _).bind _).congr fun _ hts => run_statement_expression hts

/-- A clause is entered where an expression begins. -/
theorem enters_clause (inner : Level) {closing : Symbol}
    (hclosing : beginsExpression (.symbol closing) = false) :
    (clause inner closing).Enters [] (expression inner) (Begins (.expression .assignment)) := by
  refine ((Enters.refl _ _).map _).unlessNext fun ts hts => ?_
  obtain ⟨t, us, rfl, hbegins, -⟩ := hts
  exact startsWith_of_begins ⟨t, us, rfl, hbegins⟩ hclosing []

/-- The arguments of a call are entered where an expression begins. -/
theorem enters_callArguments (inner : Level) (f : Expr Unit) :
    (callArguments inner f).Enters [] (commaSeparated inner.expression .tooManyArguments)
      (Begins .arguments) := by
  refine Enters.bind ((Enters.refl _ _).unlessNext fun us hus => ?_) _
  obtain ⟨t, vs, rfl, hbegins⟩ := hus
  exact startsWith_of_begins ⟨t, vs, rfl, hbegins⟩ rfl []

/-- The value of a variable is entered after the equals sign. -/
theorem enters_var (inner : Level) (Fit : List Token → Prop) {n : Name} {l : Int} :
    (varDeclaration inner).Enters [ident n, sym .equal l] (expression inner) Fit :=
  Enters.name ((Enters.select (if_pos rfl) ((Enters.refl _ _).map _)).bind _)

/-- A routine is entered after its name. -/
theorem enters_namedRoutine (inner : Level) (missingName : SyntaxFault) (Fit : List Token → Prop)
    {n : Name} : (namedRoutine inner missingName).Enters [ident n] (routine inner n.text) Fit :=
  Enters.name ((Enters.refl _ _).bind _)

/-- When the tokens before a part of a phrase are read, the parser of the part is entered. -/
theorem Opens.enters {d d' : Nat} {p q : Phrase} {ts : List Token} (h : Opens d p ts d' q)
    {P : Parser p.Tree} (hP : ParserOf (Level.ofDepth d) p P) :
    ∃ Q, ParserOf (Level.ofDepth d') q Q ∧ P.Enters ts Q (Fits q) := by
  cases h with
  -- Expressions. The tokens before a part are none, a symbol, or expressions that the loop of the level
  -- has read.
  | @tighter d p =>
    cases hP
    refine ⟨_, .expression p.tighter, ?_⟩
    by_cases hp : p.GoesOn
    · rw [parser_eq_of_goesOn _ hp]
      exact (Enters.refl _ _).bind _
    · cases p with
      | assignment => exact (Enters.refl _ _).bind _
      | operand =>
        -- No operator stands before a call, so the parser of calls is the one that is chosen.
        refine (Enters.refl _ _).congr fun ts hts => ?_
        obtain ⟨t, us, rfl, -, -, hnone⟩ := hts
        exact run_operand_of_none (hnone (.inl rfl)) us
      | primary => exact Enters.refl _ _
      | call => exact absurd (.inl rfl) hp
      | _ => exact absurd (.inr rfl) hp
  | @grouping d l =>
    cases hP
    exact ⟨_, .expression .assignment, Enters.select rfl ((Enters.refl _ _).bind _)⟩
  | lambda =>
    cases hP
    exact ⟨_, .routine _, Enters.select rfl ((Enters.refl _ _).map _)⟩
  | @arguments _ ts f l h =>
    cases hP
    refine ⟨_, .arguments, ?_⟩
    refine ((enters_callArguments (Level.ofDepth (d' + 1)) f).bind (Precedence.goOn (Level.ofDepth (d' + 1)) .call)).congr
      fun us _ => ?_
    rw [List.append_assoc]
    exact (h.continues (.inl rfl) (_ :: _) (stops_of_binds?_call rfl)).trans (run_extend_some rfl us)
  | firstArgument =>
    cases hP
    exact ⟨_, .expression .assignment, (Enters.refl _ _).bind _⟩
  | argument h count =>
    cases hP
    exact ⟨_, .expression .assignment, enters_afterComma .tooManyArguments
      (fun ts e rest h hs => h rest hs) (fun l ts => stops_of_binds?_none rfl) h.readsPhrase count _ _⟩
  | @unary d t op hop =>
    cases hP
    refine ⟨_, .expression .operand, ?_⟩
    obtain ⟨line, rfl, rfl⟩ | ⟨line, rfl, rfl⟩ := prefixOp?_cases hop
    · exact Enters.select rfl ((Enters.refl _ _).map _)
    · exact Enters.select rfl ((Enters.refl _ _).map _)
  | @join d p ts t f left h hop =>
    cases hP
    -- The loop of the level has read the operands before the operator, and goes on from them.
    refine ⟨_, .expression p.tighter, ?_⟩
    refine (((Enters.refl _ _).map (f left)).bind (p.goOn (Level.ofDepth d))).congr fun us _ => ?_
    rw [List.append_assoc]
    exact (h.continues (.inr (joins_of_join? hop)) (_ :: _) (stops_of_join? hop us)).trans
      (run_goOn_join _ hop left us)
  | @assigned d ts target l h =>
    cases hP
    refine ⟨_, .expression .assignment, ?_⟩
    refine Enters.after (c := target) (fun us _ => ?_)
      (Enters.select (if_pos rfl) ((Enters.refl _ _).bind _))
    refine ReadsThrough.reads h.readsPhrase ?_
    intro t ht q hq
    cases ht
    cases hq
    decide
  -- Routines. The parameters are read before the body, and methods before the next one.
  | body h =>
    cases hP
    obtain ⟨Q, hQ, hblock⟩ := enters_block (Level.ofDepth _) (Fits .declarations)
    refine ⟨Q, hQ, Enters.symbol (Enters.after (fun us _ => reads_parameters h _ _) ?_)⟩
    exact Enters.symbol (Enters.symbol (hblock.bind _))
  | @method d ts ms n h =>
    cases hP
    refine ⟨_, .routine n.text, (enters_afterMethods h .methods).trans ?_ fun _ _ => trivial⟩
    exact Enters.repeatUntil (enters_namedRoutine _ _ _) fun us _ => ⟨_, _, rfl, rfl⟩
  -- Statements. The keyword chooses the branch, and the parts before the one in question are read whole.
  | expression =>
    cases hP
    exact ⟨_, .expression .assignment, enters_statement_expression _⟩
  | print =>
    cases hP
    exact ⟨_, .expression .assignment, Enters.select rfl ((Enters.refl _ _).bind _)⟩
  | «return» =>
    cases hP
    exact ⟨_, .expression .assignment, Enters.select rfl ((enters_clause _ rfl).bind _)⟩
  | block =>
    cases hP
    obtain ⟨Q, hQ, hblock⟩ := enters_block (Level.ofDepth _) (Fits .declarations)
    exact ⟨Q, hQ, Enters.select rfl (hblock.map _)⟩
  | ifCondition =>
    cases hP
    exact ⟨_, .expression .assignment,
      Enters.select rfl (Enters.symbol ((Enters.refl _ _).bind _))⟩
  -- A condition ends with the parenthesis after it.
  | @onTrue d ts c k k' l₁ l₂ l₃ hc =>
    cases hP
    refine ⟨_, .statement k', Enters.select rfl (Enters.symbol (Enters.after (c := c) (fun us _ => ?_) ?_))⟩
    · exact ReadsThrough.fully hc.readsPhrase _ (stops_of_binds?_none rfl)
    · exact Enters.symbol ((Enters.refl _ _).bind _)
  | @onFalse d ts us c s k k' l₁ l₂ l₃ l₄ hc h =>
    cases hP
    refine ⟨_, .statement k', Enters.select rfl (Enters.symbol (Enters.after (c := c) (fun vs _ => ?_) ?_))⟩
    · exact ReadsThrough.fully hc.readsPhrase _ (stops_of_binds?_none rfl)
    · refine Enters.symbol (Enters.after (fun vs _ => h.readsPhrase _ fun hk => absurd hk Bool.false_ne_true) ?_)
      exact (Enters.select (if_pos rfl) ((Enters.refl _ _).map _)).bind _
  | whileCondition =>
    cases hP
    exact ⟨_, .expression .assignment,
      Enters.select rfl (Enters.symbol ((Enters.refl _ _).bind _))⟩
  | @whileBody d ts c k k' l₁ l₂ l₃ hc =>
    cases hP
    refine ⟨_, .statement k', Enters.select rfl (Enters.symbol (Enters.after (c := c) (fun us _ => ?_) ?_))⟩
    · exact ReadsThrough.fully hc.readsPhrase _ (stops_of_binds?_none rfl)
    · exact Enters.symbol ((Enters.refl _ _).bind _)
  | loopStart =>
    cases hP
    exact ⟨_, .loopStart, Enters.select rfl (Enters.symbol ((Enters.refl _ _).bind _))⟩
  | loopCondition hi =>
    cases hP
    refine ⟨_, .expression .assignment, Enters.select rfl (Enters.symbol ?_)⟩
    exact Enters.after (fun us _ => hi.readsPhrase _) ((enters_clause _ rfl).bind _)
  | loopStep hi hc =>
    cases hP
    refine ⟨_, .expression .assignment, Enters.select rfl (Enters.symbol ?_)⟩
    -- A clause ends before the symbol that closes it, which is read after it.
    refine Enters.after (fun us _ => hi.readsPhrase _)
      (Enters.after (fun us _ => hc.readsPhrase _ _ (.inl rfl) rfl) ?_)
    exact Enters.symbol ((enters_clause _ rfl).bind _)
  | @loopBody d ts us vs i c n k k' l₁ l₂ l₃ l₄ hi hc hn =>
    cases hP
    refine ⟨_, .statement k', Enters.select rfl (Enters.symbol ?_)⟩
    refine Enters.after (fun us _ => hi.readsPhrase _)
      (Enters.after (fun us _ => hc.readsPhrase _ _ (.inl rfl) rfl) ?_)
    refine Enters.symbol (Enters.after (fun us _ => hn.readsPhrase _ _ (.inr rfl) rfl) ?_)
    exact Enters.symbol ((Enters.refl _ _).bind _)
  | startVar =>
    cases hP
    exact ⟨_, .expression .assignment, Enters.select rfl ((enters_var _ _).map _)⟩
  | startExpression =>
    cases hP
    exact ⟨_, .expression .assignment,
      (((Enters.refl _ _).bind _).map some).congr fun _ hts => run_loopStart_expression hts⟩
  -- Declarations. The keyword is enough to choose among them, and what has none is a statement.
  | @var d n k l l' =>
    cases hP
    refine ⟨_, .expression .assignment, (enters_var (n := n) (l := l') _ _).congr fun us _ => ?_⟩
    exact (run_strictDeclaration _ _).trans (run_select_some rfl _)
  | @function d n k l =>
    cases hP
    refine ⟨_, .routine n.text, ((enters_namedRoutine _ .functionName _).map
      fun r => Stmt.function r.1 r.2).congr fun us _ => ?_⟩
    exact (run_strictDeclaration _ _).trans (run_select_some rfl _)
  | @«class» d n k l l' =>
    cases hP
    have hclass : (classDeclaration (Level.ofDepth d)).Enters [ident n, sym .leftBrace l'] _
        (Fits .methods) := Enters.name (Enters.symbol ((Enters.refl _ _).bind _))
    refine ⟨_, .methods, hclass.congr fun us _ => ?_⟩
    exact (run_strictDeclaration _ _).trans (run_select_some rfl _)
  | @statement d k =>
    cases hP
    exact ⟨_, .statement k,
      (Enters.refl _ _).congr fun ts hts => run_strictDeclaration_statement k hts⟩

/-- A part of a phrase, of a part of it, and so on, with the tokens before it. Nothing leads into
declarations here: they are read one by one, and one that is broken is given up. -/
inductive Reaches (d : Nat) (p : Phrase) : List Token → Nat → Phrase → Prop
  | here : Reaches d p [] d p
  | step {d' d'' : Nat} {q r : Phrase} {ts us : List Token} (h : Reaches d p ts d' q)
    (next : Opens d' q us d'' r) : Reaches d p (ts ++ us) d'' r

/-- What stops a phrase stops the one that it is the end of. -/
theorem Reaches.fits {d d' : Nat} {p q : Phrase} {ts us : List Token} (h : Reaches d p ts d' q)
    (hus : Fits q us) : Fits p (ts ++ us) := by
  induction h generalizing us with
  | here => exact hus
  | step h next ih =>
    rw [List.append_assoc]
    exact ih (next.fits hus)

/-- What is reached is entered. -/
theorem Reaches.enters {d d' : Nat} {p q : Phrase} {ts : List Token} (h : Reaches d p ts d' q)
    {P : Parser p.Tree} (hP : ParserOf (Level.ofDepth d) p P) :
    ∃ Q, ParserOf (Level.ofDepth d') q Q ∧ P.Enters ts Q (Fits q) := by
  induction h with
  | here => exact ⟨P, hP, .refl _ _⟩
  | step h next ih =>
    obtain ⟨Q, hQ, hP⟩ := ih
    obtain ⟨R, hR, hQ⟩ := next.enters hQ
    exact ⟨R, hR, hP.trans hQ fun _ hts => next.fits hts⟩

end Treewalk.Grammar
