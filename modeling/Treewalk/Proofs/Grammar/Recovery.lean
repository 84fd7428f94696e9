import Treewalk.Proofs.Grammar.Context

/-!
# What a missing semicolon costs

A parser that breaks off ends every parser that has entered it, up to the declaration at hand: this is
given up, and the declarations around it are read from where reading goes on (`run_declarations_broken`).
Declarations never break off themselves (`declarations_ne_broken`), so it is the innermost declaration
that is given up, and what stands around it is read as if nothing were wrong (`Inside.enters`).

A statement that lacks its semicolon is reported at the next token, if that token cannot belong to the
statement (`Awaits.breaks`). Reading goes on past that token in any case, even where it is the first of
the next statement, or the brace that ends the block. So more reports may follow, and
`parseProgram_missingSemicolon` says when there are none.
-/

namespace Treewalk

variable {α β : Type}

/-- What is made of tokens, with errors that were reported before it. -/
def Parsed.reporting (r : Parsed α) (errors : List SyntaxError) : Parsed α :=
  { r with errors := errors ++ r.errors }

namespace Parser

variable {p : Parser α} {q : Parser β} {before ts us rest : List Token}

/-- A parser breaks off before some tokens, with one report at the first of them. -/
def Breaks (p : Parser α) (ts rest : List Token) (fault : SyntaxFault) : Prop :=
  p.run ts = ⟨.error .broken, rest, [⟨rest.head?, fault⟩]⟩

variable {fault : SyntaxFault}

/-- What comes after a parser that breaks is not run. -/
theorem Breaks.bind (h : p.Breaks ts rest fault) (f : α → Parser β) :
    (p >>= f).Breaks ts rest fault := by
  unfold Breaks at h ⊢
  rw [run_bind_error (show (p.run ts).outcome = .error .broken by rw [h]), h]

/-- What is made of its result is not made. -/
theorem Breaks.map (h : p.Breaks ts rest fault) (f : α → β) : (f <$> p).Breaks ts rest fault := by
  rw [← bind_pure_comp]
  exact h.bind _

/-- A parser may break after others have read. -/
theorem Reads.breaks {f : α → Parser β} {a : α} (hp : p.Reads ts a us)
    (h : (f a).Breaks us rest fault) : (p >>= f).Breaks ts rest fault :=
  (run_bind_reads hp).trans h

/-- A symbol is missing. -/
theorem breaks_symbol {s : Symbol} (h : startsWith (.symbol s) ts = false) :
    (symbol s fault).Breaks ts ts fault := by
  cases ts with
  | nil => rfl
  | cons t ts =>
    refine (run_select_none ?_ ts).trans rfl
    simp only [if_neg (of_decide_eq_false h)]
    rfl

/-- The chosen parser breaks. -/
theorem Breaks.select {choose : Token → Option (Parser α)} {otherwise : Parser α} {t : Token}
    (hc : choose t = some p) (h : p.Breaks ts rest fault) :
    (Parser.select choose otherwise).Breaks (t :: ts) rest fault :=
  (run_select_some hc ts).trans h

/-- The parser that is entered breaks. -/
theorem Enters.breaks {Fit : List Token → Prop} (h : p.Enters before q Fit) (hts : Fit ts)
    (hq : q.Breaks ts rest fault) : p.Breaks (before ++ ts) rest fault := by
  obtain ⟨finish, hfinish⟩ := h
  exact (hfinish ts hts).trans (hq.bind finish)

/-- Errors that were recovered from before do not matter to what comes after. -/
theorem run_bind_reporting {errors : List SyntaxError} (h : p.run ts = (p.run us).reporting errors)
    (f : α → Parser β) : (p >>= f).run ts = ((p >>= f).run us).reporting errors := by
  cases hus : (p.run us).outcome with
  | error halt =>
    have hts : (p.run ts).outcome = .error halt := by rw [h]; exact hus
    rw [run_bind_error hts, run_bind_error hus, h]
    rfl
  | ok a =>
    have hts : (p.run ts).outcome = .ok a := by rw [h]; exact hus
    rw [run_bind_ok hts, run_bind_ok hus, h]
    simp only [Parsed.reporting, List.append_assoc]

end Parser

namespace Grammar

open Treewalk.Parser

/-! ## Recovery -/

/-- A parser that never breaks off need not be recovered from, only what comes after it. -/
theorem recovered_bind {p : Parser α} (hp : ∀ ts, (p.run ts).outcome ≠ .error .broken)
    (f : α → Parser β) : recovered (p >>= f) = p >>= fun a => recovered (f a) := by
  refine ext_run fun ts => ?_
  -- The first parser does not break, so there is nothing to recover from before the second.
  rcases hts : (p.run ts).outcome with (_ | _) | a
  · exact absurd hts (hp ts)
  · have hdeep : ((p >>= f).run ts).outcome ≠ .error .broken := by rw [run_bind_error hts]; nofun
    rw [recovered_of_ne_broken hdeep, run_bind_error hts, run_bind_error hts]
    rfl
  · rw [run_bind_ok hts]
    by_cases hbroken : ((f a).run (p.run ts).rest).outcome = .error .broken
    · have hseq : ((p >>= f).run ts).outcome = .error .broken := by rw [run_bind_ok hts]; exact hbroken
      rw [recovered_of_broken hseq, recovered_of_broken hbroken, run_bind_ok hts]
    · have hseq : ((p >>= f).run ts).outcome ≠ .error .broken := by rw [run_bind_ok hts]; exact hbroken
      rw [recovered_of_ne_broken hseq, recovered_of_ne_broken hbroken, run_bind_ok hts]

/-- Recovery depends on the run only. -/
theorem run_recovered_congr {p q : Parser α} {ts us : List Token} (h : p.run ts = q.run us) :
    (recovered p).run ts = (recovered q).run us := by
  simp only [recovered, h]

/-- A parser that never breaks off is entered through a recovered parser. -/
theorem enters_recovered {p : Parser α} {q : Parser β} {before : List Token}
    {Fit : List Token → Prop} (h : p.Enters before q Fit)
    (hq : ∀ ts, (q.run ts).outcome ≠ .error .broken) : (recovered p).Enters before q Fit := by
  obtain ⟨finish, hfinish⟩ := h
  refine ⟨fun b => recovered (finish b), fun ts hts => ?_⟩
  rw [run_recovered_congr (hfinish ts hts), recovered_bind hq]

variable {inner : Level} {stop : Token → Bool}

/-- Declarations are recovered from every error, and go on. -/
theorem declarations_ne_broken (inner : Level) (stop : Token → Bool) (ts : List Token) :
    ((declarations inner stop).run ts).outcome ≠ .error .broken := by
  unfold declarations
  rw [run_map]
  exact fun h => repeatUntil_ne_broken _ (recovered_ne_broken (strictDeclaration inner)) ts
    (map_eq_error_iff.1 h)

/-- The first declaration is read, and the others after it. -/
theorem run_declarations_cons {t : Token} (ht : stop t = false) (ts : List Token) :
    (declarations inner stop).run (t :: ts) =
      (declaration inner >>= fun o => (o.toList ++ ·) <$> declarations inner stop).run (t :: ts) := by
  -- Results that are missing are left out, of the first item as of all.
  have hlater : ∀ o : Option (Stmt Unit), ((o.toList ++ ·) <$> declarations inner stop) =
      List.filterMap id <$> ((o :: ·) <$>
        repeatUntil stop (declaration inner) (progress_declaration inner)) := by
    intro o
    unfold declarations
    rw [Functor.map_map, Functor.map_map]
    cases o <;> rfl
  have hround : (repeatUntil stop (declaration inner) (progress_declaration inner)).run (t :: ts) = _ :=
    run_repeatUntil_of_not_stop ht ts
  have hcons := run_bind_congr hround fun os => (pure (os.filterMap id) : Parser (List (Stmt Unit)))
  rw [bind_assoc] at hcons
  simp only [hlater]
  exact hcons

/-! ## Among declarations -/

/-- Where a declaration begins, declarations do not end. -/
theorem exists_cons_of_begins (k : Bool) {ts : List Token} (h : Begins (.declaration k) ts)
    (hstop : ∀ t, stop t = true → t.lexeme = .symbol .rightBrace) :
    ∃ t us, ts = t :: us ∧ stop t = false := by
  obtain ⟨t, us, rfl, hbrace, -⟩ := h
  exact ⟨t, us, rfl, Bool.eq_false_iff.2 fun ht => hbrace (hstop t ht)⟩

/-- What a declaration enters is entered among declarations. -/
theorem enters_declaration {q : Parser β} {before : List Token} {Fit : List Token → Prop}
    (h : (declaration inner).Enters before q Fit)
    (hstop : ∀ ts, Fit ts → ∃ t us, before ++ ts = t :: us ∧ stop t = false) :
    (declarations inner stop).Enters before q Fit := by
  refine (h.bind fun o => (o.toList ++ ·) <$> declarations inner stop).congr fun ts hts => ?_
  obtain ⟨t, us, htokens, ht⟩ := hstop ts hts
  rw [htokens]
  exact run_declarations_cons ht us

/-- After a declaration that is read, declarations go on. -/
theorem enters_afterDeclaration {ts : List Token} {Fit : List Token → Prop} {s : Stmt Unit}
    (h : ∀ us, Fit us → (declaration inner).Reads (ts ++ us) (some s) us)
    (hstop : ∀ us, Fit us → ∃ t vs, ts ++ us = t :: vs ∧ stop t = false) :
    (declarations inner stop).Enters ts (declarations inner stop) Fit := by
  refine ((Enters.refl _ Fit).map (s :: ·)).congr fun us hus => ?_
  obtain ⟨t, vs, htokens, ht⟩ := hstop us hus
  have hread := h us hus
  rw [htokens] at hread ⊢
  exact (run_declarations_cons ht vs).trans (run_bind_reads hread)

/-- Where a declaration breaks off, whatever it reports, the others are read from where reading goes
on. -/
theorem run_declarations_resume {t : Token} {ts : List Token} (ht : stop t = false)
    (h : ((strictDeclaration inner).run (t :: ts)).outcome = .error .broken) :
    (declarations inner stop).run (t :: ts) =
      ((declarations inner stop).run (resume ((strictDeclaration inner).run (t :: ts)).rest)).reporting
        ((strictDeclaration inner).run (t :: ts)).errors := by
  have hbroken : (declaration inner).run (t :: ts) = _ := recovered_of_broken h
  have hnone : ((Option.toList (none : Option (Stmt Unit)) ++ ·) <$> declarations inner stop) =
      declarations inner stop := id_map _
  rw [run_declarations_cons ht, run_bind_ok (by rw [hbroken]), hbroken, hnone]
  rfl

/-- A declaration that breaks off costs its report, and the others are read from where reading goes
on. -/
theorem run_declarations_broken {t : Token} {ts rest : List Token} {fault : SyntaxFault}
    (ht : stop t = false) (h : (strictDeclaration inner).Breaks (t :: ts) rest fault) :
    (declarations inner stop).run (t :: ts) =
      ((declarations inner stop).run (resume rest)).reporting [⟨rest.head?, fault⟩] := by
  unfold Breaks at h
  rw [run_declarations_resume ht (by rw [h]), h]

/-- No `else` comes before a declaration. -/
theorem fits_declarations (k : Bool) {ts : List Token} (h : Begins (.declaration k) ts) :
    Fits .declarations ts := by
  obtain ⟨t, us, rfl, -, helse⟩ := h
  exact decide_eq_false helse

/-- What may come after declarations may come after more of them. -/
theorem Derives.fits {d : Nat} {ts us : List Token} {ss : List (Stmt Unit)}
    (h : Derives true d .declarations ts ss) (hus : Fits .declarations us) :
    Fits .declarations (ts ++ us) := by
  cases h with
  | noDeclaration => exact hus
  | declarations h later =>
    obtain ⟨t, vs, rfl, -, helse⟩ := h.begins
    exact decide_eq_false helse

/-- After whole declarations, declarations go on. -/
theorem Derives.enters {d : Nat} {ts : List Token} {ss : List (Stmt Unit)}
    (h : Derives true d .declarations ts ss)
    {P : Parser (List (Stmt Unit))} (hP : ParserOf (Level.ofDepth d) .declarations P) :
    P.Enters ts P (Fits .declarations) := by
  cases hP with
  | declarations stop hstop =>
    -- By induction on the declarations: each is read and recovered from, and the parser is entered again.
    induction ss generalizing ts with
    | nil =>
      cases h
      exact .refl _ _
    | cons s ss ih =>
      cases h with
      | @declarations d ts us s ss k h later =>
        have hread : ∀ vs, Fits .declarations vs →
            (declaration (Level.ofDepth d)).Reads (ts ++ vs) (some s) vs := fun vs hvs =>
          (reads_recovered (halts_strictDeclaration (Level.halts_ofDepth d))).2
            ⟨s, rfl, h.readsPhrase vs fun _ => hvs⟩
        refine (enters_afterDeclaration hread fun vs _ => ?_).trans (ih later) fun _ => later.fits
        obtain ⟨t, us, rfl, ht⟩ := exists_cons_of_begins k h.begins hstop
        exact ⟨t, us ++ vs, rfl, ht⟩

/-- The places before a declaration, in a program or in a block of it: the tokens before such a place,
and the depth at which its declarations stand. -/
inductive Inside (depth : Nat) : List Token → Nat → Prop
  | here : Inside depth [] depth
  | after {d : Nat} {ts us : List Token} {ss : List (Stmt Unit)} (h : Inside depth ts d)
    (later : Derives true d .declarations us ss) : Inside depth (ts ++ us) d
  | within {d d' : Nat} {ts us : List Token} {k : Bool} (h : Inside depth ts d)
    (hr : Reaches d (.declaration k) us d' .declarations) : Inside depth (ts ++ us) d'

/-- The declarations at a place are entered through all that stands around it. -/
theorem Inside.enters {depth d : Nat} {ts : List Token} (h : Inside depth ts d)
    {P : Parser (List (Stmt Unit))} (hP : ParserOf (Level.ofDepth depth) .declarations P) :
    ∃ Q, ParserOf (Level.ofDepth d) .declarations Q ∧ P.Enters ts Q (Fits .declarations) := by
  induction h with
  | here => exact ⟨P, hP, .refl _ _⟩
  | after h later ih =>
    obtain ⟨Q, hQ, hP⟩ := ih
    exact ⟨Q, hQ, hP.trans (later.enters hQ) fun _ hvs => later.fits hvs⟩
  | @within d d' ts us k h hr ih =>
    obtain ⟨Q, hQ, hP⟩ := ih
    obtain ⟨R, hR, hstrict⟩ := hr.enters (.declaration k)
    -- Declarations inside never break off, so a declaration around them is not given up there.
    have hdeclaration : (declaration (Level.ofDepth d)).Enters us R (Fits .declarations) := by
      cases hR
      exact enters_recovered hstrict (declarations_ne_broken _ _)
    refine ⟨R, hR, hP.trans ?_ fun _ hvs => fits_declarations k (hr.fits hvs)⟩
    cases hQ with
    | declarations stop hstop =>
      exact enters_declaration hdeclaration fun _ hvs => exists_cons_of_begins k (hr.fits hvs) hstop

/-! ## Statements without their semicolon -/

/-- A statement, a declaration of a variable or the start of a loop up to its semicolon, and what is
reported where the semicolon is missing. A `return` alone may have a value, so an expression is missed
after it. -/
inductive Awaits : Nat → Phrase → List Token → SyntaxFault → Prop
  | expression {d : Nat} {ts : List Token} {e : Expr Unit}
    (h : Derives true d (.expression .assignment) ts e) : Awaits d (.statement false) ts .expressionEnd
  | print {d : Nat} {ts : List Token} {e : Expr Unit} {l : Int}
    (h : Derives true d (.expression .assignment) ts e) :
    Awaits d (.statement false) (word .print l :: ts) .printEnd
  | returnNothing {d : Nat} {l : Int} :
    Awaits d (.statement false) [word .return_ l] .expression
  | return {d : Nat} {ts : List Token} {e : Expr Unit} {l : Int}
    (h : Derives true d (.expression .assignment) ts e) :
    Awaits d (.statement false) (word .return_ l :: ts) .returnEnd
  | unset {d : Nat} {n : Name} {l : Int} :
    Awaits d (.declaration false) [word .var l, ident n] .declarationEnd
  | var {d : Nat} {ts : List Token} {n : Name} {e : Expr Unit} {l l' : Int}
    (h : Derives true d (.expression .assignment) ts e) :
    Awaits d (.declaration false) (word .var l :: ident n :: sym .equal l' :: ts) .declarationEnd
  | startUnset {d : Nat} {n : Name} {l : Int} :
    Awaits d .loopStart [word .var l, ident n] .declarationEnd
  | startVar {d : Nat} {ts : List Token} {n : Name} {e : Expr Unit} {l l' : Int}
    (h : Derives true d (.expression .assignment) ts e) :
    Awaits d .loopStart (word .var l :: ident n :: sym .equal l' :: ts) .declarationEnd
  | startExpression {d : Nat} {ts : List Token} {e : Expr Unit}
    (h : Derives true d (.expression .assignment) ts e) : Awaits d .loopStart ts .expressionEnd

/-- With its semicolon the statement is one of the grammar. -/
theorem Awaits.derives {d : Nat} {p : Phrase} {ts : List Token} {fault : SyntaxFault}
    (h : Awaits d p ts fault) (l : Int) : ∃ t, Derives true d p (ts ++ [sym .semicolon l]) t := by
  cases h with
  | expression h => exact ⟨_, .expression h⟩
  | print h => exact ⟨_, .print h⟩
  | returnNothing => exact ⟨_, .return .noClause⟩
  | «return» h => exact ⟨_, .return (.clause h)⟩
  | unset => exact ⟨_, .varDeclaration .unset⟩
  | var h => exact ⟨_, .varDeclaration (.var h)⟩
  | startUnset => exact ⟨_, .varStart .unset⟩
  | startVar h => exact ⟨_, .varStart (.var h)⟩
  | startExpression h => exact ⟨_, .expressionStart h⟩

/-- The next token cannot belong to a statement that lacks its semicolon: it is no semicolon, it goes on
with no expression, and where a value may come it begins none. -/
def Foreign (fault : SyntaxFault) (ts : List Token) : Prop :=
  ∀ t ∈ ts.head?, t.lexeme ≠ .symbol .semicolon ∧ binds? t = none ∧
    (fault = .expression → beginsExpression t.lexeme = false)

/-- A foreign token is no semicolon. -/
theorem Foreign.startsWith {fault : SyntaxFault} {ts : List Token} (h : Foreign fault ts) :
    startsWith (.symbol .semicolon) ts = false := by
  cases ts with
  | nil => rfl
  | cons t ts => exact decide_eq_false (h t rfl).1

/-- A foreign token ends an expression. -/
theorem Foreign.stops {fault : SyntaxFault} {ts : List Token} (h : Foreign fault ts) :
    Stops .assignment ts := by
  intro t ht q hq
  rw [(h t ht).2.1] at hq
  cases hq

/-- Where no expression begins, the parser of expressions breaks off. -/
theorem breaks_expression (inner : Level) {ts : List Token}
    (h : ∀ t ∈ ts.head?, beginsExpression t.lexeme = false) :
    (expression inner).Breaks ts ts .expression := by
  cases ts with
  | nil => rfl
  | cons t ts =>
    obtain ⟨lexeme, line⟩ := t
    have hbegins := h _ rfl
    cases lexeme with
    | symbol s => cases s <;> first | rfl | cases hbegins
    | keyword k => cases k <;> first | rfl | cases hbegins
    | identifier | number | string => cases hbegins

/-- A value of a variable is missing where no equals sign comes. -/
theorem reads_noValue (inner : Level) {fault : SyntaxFault} {us : List Token} (h : Foreign fault us) :
    (initialValue inner).Reads us none us := by
  refine (reads_select_of_none fun t ht => if_neg fun hequal => ?_).2 (reads_pure.2 ⟨rfl, rfl⟩)
  have hbinds := (h t ht).2.1
  unfold binds? at hbinds
  rw [hequal] at hbinds
  cases hbinds

/-- What an awaiting phrase fits does not depend on what comes after the missing semicolon. -/
theorem Awaits.fits {d : Nat} {p : Phrase} {ts : List Token} {fault : SyntaxFault}
    (h : Awaits d p ts fault) (us : List Token) : Fits p (ts ++ us) := by
  cases h with
  | expression h => exact Begins.statement h.begins false us
  | print | returnNothing | «return» => refine ⟨_, _, rfl, ?_, ?_, ?_, ?_, nofun⟩ <;> exact nofun
  | unset | var => exact ⟨_, _, rfl, nofun, nofun⟩
  | startUnset | startVar | startExpression => trivial

section

variable {d : Nat} {ts us : List Token} {e : Expr Unit} {fault : SyntaxFault}

/-- After an expression the semicolon is missed. -/
theorem breaks_afterExpression {α : Type} (h : Derives true d (.expression .assignment) ts e)
    (hus : Foreign fault us) (f : Expr Unit → Int → Parser α) :
    (expression (Level.ofDepth d) >>= fun e => symbol .semicolon fault >>= f e).Breaks (ts ++ us) us
      fault :=
  Reads.breaks (ReadsThrough.fully h.readsPhrase us hus.stops) ((breaks_symbol hus.startsWith).bind _)

/-- A declaration without a value breaks where its semicolon is missing. -/
theorem breaks_varDeclaration_unset {n : Name} (hus : Foreign .declarationEnd us) :
    (varDeclaration (Level.ofDepth d)).Breaks (ident n :: us) us .declarationEnd :=
  Reads.breaks (reads_name.2 rfl)
    (Reads.breaks (reads_noValue _ hus) ((breaks_symbol hus.startsWith).bind _))

/-- So does a declaration with a value. -/
theorem breaks_varDeclaration {n : Name} {l : Int} (h : Derives true d (.expression .assignment) ts e)
    (hus : Foreign .declarationEnd us) :
    (varDeclaration (Level.ofDepth d)).Breaks (ident n :: sym .equal l :: (ts ++ us)) us
      .declarationEnd := by
  have hvalue : (initialValue (Level.ofDepth d)).Reads (sym .equal l :: (ts ++ us)) (some e) us :=
    (reads_select_some (if_pos rfl)).2
      (reads_map.2 ⟨e, ReadsThrough.fully h.readsPhrase us hus.stops, rfl⟩)
  exact Reads.breaks (reads_name.2 rfl)
    (Reads.breaks hvalue ((breaks_symbol hus.startsWith).bind _))

end

/-- A statement that lacks its semicolon breaks off at the token that comes instead. -/
theorem Awaits.breaks {d : Nat} {p : Phrase} {ts us : List Token} {fault : SyntaxFault}
    (h : Awaits d p ts fault) (hus : Foreign fault us) {P : Parser p.Tree}
    (hP : ParserOf (Level.ofDepth d) p P) : P.Breaks (ts ++ us) us fault := by
  cases h with
  | expression h =>
    cases hP
    exact (run_statement_expression (h.begins.append id us)).trans (breaks_afterExpression h hus _)
  | print h =>
    cases hP
    exact Breaks.select rfl (breaks_afterExpression h hus _)
  | returnNothing =>
    cases hP
    -- Without a semicolon a value is read, and there is none.
    refine Breaks.select rfl (Breaks.bind ?_ _)
    have hvalue := breaks_expression (Level.ofDepth d) fun t ht => (hus t ht).2.2 rfl
    exact (run_unlessNext hus.startsWith).trans (hvalue.map some)
  | @«return» ts e l h =>
    cases hP
    have hvalue : (clause (Level.ofDepth d) .semicolon).Reads (ts ++ us) (some e) us := by
      obtain ⟨t, vs, rfl, hbegins, -⟩ := h.begins
      refine reads_unlessNext.2 (.inr ⟨startsWith_of_begins ⟨t, vs, rfl, hbegins⟩ rfl us, ?_⟩)
      exact reads_map.2 ⟨e, ReadsThrough.fully h.readsPhrase us hus.stops, rfl⟩
    exact Breaks.select rfl (hvalue.breaks ((breaks_symbol hus.startsWith).bind _))
  | unset =>
    cases hP
    exact (run_strictDeclaration _ _).trans (Breaks.select rfl (breaks_varDeclaration_unset hus))
  | var h =>
    cases hP
    exact (run_strictDeclaration _ _).trans (Breaks.select rfl (breaks_varDeclaration h hus))
  | startUnset =>
    cases hP
    exact Breaks.select rfl ((breaks_varDeclaration_unset hus).map _)
  | startVar h =>
    cases hP
    exact Breaks.select rfl ((breaks_varDeclaration h hus).map _)
  | startExpression h =>
    cases hP
    exact (run_loopStart_expression (h.begins.append id us)).trans
      ((breaks_afterExpression h hus _).map some)

/-! ## Programs -/

/-- What is made of declarations, one of which lacks its semicolon: a report at the token that comes
instead, and then what is read from where reading goes on. -/
theorem run_missingSemicolon {d d' : Nat} {p : Phrase} {k : Bool} {ts us rest : List Token}
    {fault : SyntaxFault} (hr : Reaches d (.declaration k) ts d' p) (hw : Awaits d' p us fault)
    (hrest : Foreign fault rest) {P : Parser (List (Stmt Unit))}
    (hP : ParserOf (Level.ofDepth d) .declarations P) :
    P.run (ts ++ (us ++ rest)) = (P.run (resume rest)).reporting [⟨rest.head?, fault⟩] := by
  obtain ⟨Q, hQ, hstrict⟩ := hr.enters (.declaration k)
  have hfits := hw.fits rest
  cases hP with
  | declarations stop hstop =>
    obtain ⟨t, vs, htokens, ht⟩ := exists_cons_of_begins k (hr.fits hfits) hstop
    have hbreaks := hstrict.breaks hfits (hw.breaks hrest hQ)
    rw [htokens] at hbreaks ⊢
    exact run_declarations_broken ht hbreaks

/-- An `else` among declarations is reported, as no declaration begins with it. -/
theorem run_declarations_else {d : Nat} {ts : List Token} (h : startsWith (.keyword .else_) ts = true)
    {P : Parser (List (Stmt Unit))} (hP : ParserOf (Level.ofDepth d) .declarations P) :
    P.run ts = (P.run (resume ts)).reporting [⟨ts.head?, .expression⟩] := by
  cases ts with
  | nil => cases h
  | cons t ts =>
    obtain ⟨lexeme, line⟩ := t
    obtain rfl : lexeme = .keyword .else_ := of_decide_eq_true h
    cases hP with
    | declarations stop hstop =>
      -- No declaration and no expression begins with `else`, so parsing breaks at it.
      refine run_declarations_broken (Bool.eq_false_iff.2 fun ht => nomatch hstop _ ht) ?_
      have hexpression : (expression (Level.ofDepth d)).Breaks (word .else_ line :: ts) _ .expression :=
        breaks_expression _ fun t ht => by cases ht; rfl
      -- None of the choices is for `else`, so each passes it on.
      calc (strictDeclaration (Level.ofDepth d)).run (word .else_ line :: ts)
          = (declarationIf (Level.ofDepth d) false).run (word .else_ line :: ts) :=
            run_strictDeclaration _ _
        _ = (statement (Level.ofDepth d)).run (word .else_ line :: ts) := run_select_none rfl ts
        _ = (expressionStatement (Level.ofDepth d)).run (word .else_ line :: ts) := run_select_none rfl ts
        _ = ⟨.error .broken, _, _⟩ := hexpression.bind _

/-- Where the semicolon of a statement is missing, at any depth, and the next token cannot belong to the
statement, this is reported at that token. It is the only report if and only if the tokens have none
from where reading goes on: these are not the tokens of the next statement, as reading goes on past the
token of the report in any case. -/
theorem parseProgram_missingSemicolon {depth d d' : Nat} {p : Phrase} {k : Bool}
    {before ts us rest : List Token} {fault : SyntaxFault} (hin : Inside depth before d)
    (hr : Reaches d (.declaration k) ts d' p) (hw : Awaits d' p us fault) (hrest : Foreign fault rest) :
    (parseProgram depth (before ++ (ts ++ (us ++ rest)))).errors.head? = some ⟨rest.head?, fault⟩ ∧
    ((parseProgram depth (before ++ (ts ++ (us ++ rest)))).errors.length ≤ 1 ↔
      startsWith (.keyword .else_) (resume rest) = false ∧
        (parseProgram depth (before ++ resume rest)).errors = []) := by
  obtain ⟨Q, hQ, finish, hfinish⟩ := hin.enters (.declarations (fun _ => false) nofun)
  have hfits : Fits .declarations (ts ++ (us ++ rest)) := fits_declarations k (hr.fits (hw.fits rest))
  have hrun : parseProgram depth (before ++ (ts ++ (us ++ rest))) =
      ((Q >>= finish).run (resume rest)).reporting [⟨rest.head?, fault⟩] :=
    (hfinish _ hfits).trans (run_bind_reporting (run_missingSemicolon hr hw hrest hQ) finish)
  rw [hrun]
  refine ⟨rfl, ?_⟩
  cases helse : startsWith (.keyword .else_) (resume rest) with
  | false =>
    -- The place where reading goes on is entered like the place of the broken declaration.
    have hresume : parseProgram depth (before ++ resume rest) = (Q >>= finish).run (resume rest) :=
      hfinish _ helse
    rw [hresume]
    simp [Parsed.reporting]
  | true =>
    -- The `else` cannot be taken for one of a conditional before it, so it is reported too.
    rw [run_bind_reporting (run_declarations_else helse hQ) finish]
    simp [Parsed.reporting]

/-- The beginning of a function with its brace: `fn g() \x7b`. -/
def functionOpening : List Token :=
  [word .fn 1, ident ⟨"g", 1⟩, sym .leftParen 1, sym .rightParen 1, sym .leftBrace 1]

/-- The beginning of a conditional: `if (c)`. -/
def conditionalOpening : List Token :=
  [word .if_ 1, sym .leftParen 1, ident ⟨"c", 1⟩, sym .rightParen 1]

/-- A function in the body of another one, whose closing brace comes last: `fn f() \x7b b; \x7d \x7d`. -/
def functionInBody : List Token :=
  [word .fn 1, ident ⟨"f", 1⟩, sym .leftParen 1, sym .rightParen 1, sym .leftBrace 1, ident ⟨"b", 1⟩,
    sym .semicolon 1, sym .rightBrace 1, sym .rightBrace 1]

/-- The branch of a conditional in the body of a function lacks its semicolon, before another
function. -/
theorem parseProgram_missingSemicolon_inBody :
    Inside 4 functionOpening 3 ∧
    Reaches 3 (.declaration false) conditionalOpening 2 (.statement false) ∧
    Awaits 2 (.statement false) [ident ⟨"a", 1⟩] .expressionEnd ∧
    Foreign .expressionEnd functionInBody ∧
    (parseProgram 4 (functionOpening ++ (conditionalOpening ++ ([ident ⟨"a", 1⟩] ++ functionInBody)))
      ).errors.head? = some ⟨some (word .fn 1), .expressionEnd⟩ ∧
    ((parseProgram 4 (functionOpening ++ (conditionalOpening ++ ([ident ⟨"a", 1⟩] ++ functionInBody)))
      ).errors.length ≤ 1 ↔
      startsWith (.keyword .else_) (resume functionInBody) = false ∧
        (parseProgram 4 (functionOpening ++ resume functionInBody)).errors = []) := by
  -- The opening leads into the body of a function, and from there into a conditional.
  have hin : Inside 4 functionOpening 3 :=
    .within (k := false) .here (.step (.step .here .function) (.body .none))
  have hr : Reaches 3 (.declaration false) conditionalOpening 2 (.statement false) :=
    .step (.step .here .statement) (.onTrue (k := false) (.variable ⟨"c", 1⟩))
  -- What is missing is the semicolon after `a`, and what comes instead cannot go on with the expression.
  have hw : Awaits 2 (.statement false) [ident ⟨"a", 1⟩] .expressionEnd :=
    .expression (.variable ⟨"a", 1⟩)
  have hrest : Foreign .expressionEnd functionInBody := by
    intro t ht
    cases ht
    exact ⟨nofun, rfl, nofun⟩
  exact ⟨hin, hr, hw, hrest, parseProgram_missingSemicolon hin hr hw hrest⟩

/-- A statement and a function: `a; fn f() \x7b b; \x7d`. -/
def statementAndFunction : List Token :=
  [ident ⟨"a", 1⟩, sym .semicolon 1, word .fn 1, ident ⟨"f", 1⟩, sym .leftParen 1, sym .rightParen 1,
    sym .leftBrace 1, ident ⟨"b", 1⟩, sym .semicolon 1, sym .rightBrace 1]

/-- One missing semicolon can cost two reports: reading goes on past the keyword of the function, up to
the semicolon in its body, and the closing brace after that begins no declaration. -/
theorem parseProgram_twoReports :
    (parseProgram 4 statementAndFunction).errors = [] ∧
      (parseProgram 4 (statementAndFunction.eraseIdx 1)).errors =
        [⟨some (word .fn 1), .expressionEnd⟩, ⟨some (sym .rightBrace 1), .expression⟩] := by
  decide +kernel

end Grammar

end Treewalk
