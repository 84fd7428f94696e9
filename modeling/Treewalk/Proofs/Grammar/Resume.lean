import Treewalk.Proofs.Grammar.Built
import Treewalk.Proofs.Grammar.Recovery

/-!
# Where reading goes on

After an error some tokens are discarded, and reading goes on with the next of the others. `Discards`
says which ones these are: no token that starts a statement is among them, unless it is the first, and no
semicolon, unless it is the last (`discards_iff`).

A parser breaks off before the token that it reports last, unless that is the equals sign of an assignment
(`Built.breaksOff`). So where a declaration is reported at a token that starts a statement, this is the
first token that is discarded, and reading does not go on with the statement that it starts. A token that
starts a statement is discarded in no other case (`run_declarations_givenUp`).
-/

namespace Treewalk

variable {α : Type}

/-- A report is at the first of the tokens that are left, or at the equals sign of an assignment that has
been read. -/
def SyntaxError.StandsBefore (e : SyntaxError) (rest : List Token) : Prop :=
  e.place = rest.head? ∨
    e.fault = .assignmentTarget ∧ ∃ t, e.place = some t ∧ t.lexeme = .symbol .equal

/-- What is made of tokens is broken off with a report before those that are left, after which nothing is
reported. -/
def Parsed.BreaksOff (r : Parsed α) (e : SyntaxError) : Prop :=
  r.outcome = .error .broken ∧ (∃ earlier, r.errors = earlier ++ [e]) ∧ e.StandsBefore r.rest

/-- A parser that breaks off does so with errors of before. -/
theorem Parsed.BreaksOff.reporting {r : Parsed α} {e : SyntaxError} (h : r.BreaksOff e)
    (errors : List SyntaxError) : (r.reporting errors).BreaksOff e := by
  obtain ⟨houtcome, ⟨earlier, hearlier⟩, hplace⟩ := h
  refine ⟨houtcome, ⟨errors ++ earlier, ?_⟩, hplace⟩
  rw [List.append_assoc, ← hearlier]
  rfl

/-- Whatever comes of what is broken off, it is broken off with the same report. -/
theorem Parsed.BreaksOff.congr {β : Type} {r : Parsed α} {r' : Parsed β} {e : SyntaxError}
    (h : r.BreaksOff e) (houtcome : r'.outcome = .error .broken) (hrest : r'.rest = r.rest)
    (herrors : r'.errors = r.errors) : r'.BreaksOff e :=
  ⟨houtcome, herrors ▸ h.2.1, hrest ▸ h.2.2⟩

namespace Parser

open Grammar

/-- A parser that breaks off does so before the token that it reports last, or after the equals sign that
it reports last. -/
theorem Built.breaksOff {p : Parser α} (hp : p.Built) (ts : List Token)
    (h : (p.run ts).outcome = .error .broken) : ∃ e, (p.run ts).BreaksOff e := by
  -- By induction on how the parser is built: the error is reported where the parser breaks off, and what
  -- is read before adds reports in front only.
  induction hp generalizing ts with
  | pure | tooDeep | note | lookahead => cases h
  | fail fault => exact ⟨_, rfl, ⟨[], rfl⟩, .inl rfl⟩
  | @failAt _ t ht => exact ⟨_, rfl, ⟨[], rfl⟩, .inr ⟨rfl, t, rfl, ht⟩⟩
  | @bind α β p f hp hf ihp ihf =>
    cases hfirst : (p.run ts).outcome with
    | error halt =>
      rw [run_bind_error hfirst] at h ⊢
      cases h
      obtain ⟨e, he⟩ := ihp ts hfirst
      exact ⟨e, he.congr rfl rfl rfl⟩
    | ok a =>
      rw [run_bind_ok hfirst] at h ⊢
      obtain ⟨e, he⟩ := ihf a _ h
      exact ⟨e, he.reporting _⟩
  | @select _ choose otherwise hc ho ihc iho =>
    cases ts with
    | nil => exact iho [] h
    | cons t ts =>
      cases ht : choose t with
      | some p =>
        rw [run_select_some ht] at h ⊢
        exact ihc t p ht ts h
      | none =>
        rw [run_select_none ht] at h ⊢
        exact iho _ h
  | @extend _ next hnext b ih =>
    change (extendRun next b ts).outcome = _ at h
    change ∃ e, (extendRun next b ts).BreaksOff e
    -- The round that breaks off is the last one.
    fun_induction extendRun next b ts with
    | case1 | case2 => cases h
    | case3 b t ts p hp b' mid errors hr later ihlater =>
      obtain ⟨e, he⟩ := ihlater h
      exact ⟨e, he.reporting errors⟩
    | case4 b t ts p hp halt mid errors hr =>
      have hround := ih b t p hp ts
      rw [hr] at hround
      exact hround h
  | @repeatUntil _ stop item progress hitem ih =>
    change (repeatRun stop item progress ts).outcome = _ at h
    change ∃ e, (repeatRun stop item progress ts).BreaksOff e
    fun_induction repeatRun stop item progress ts with
    | case1 | case2 => cases h
    | case3 t ts hstop a mid errors hr later ihlater =>
      obtain ⟨e, he⟩ := ihlater (map_eq_error_iff.1 h)
      exact ⟨e, (he.reporting errors).congr h rfl rfl⟩
    | case4 t ts hstop halt mid errors hr =>
      cases h
      have hround := ih (t :: ts)
      rw [hr] at hround
      obtain ⟨e, he⟩ := hround rfl
      exact ⟨e, he.congr rfl rfl rfl⟩
  | @recovered _ p hp ih => exact absurd h (recovered_ne_broken p ts)

end Parser

namespace Grammar

open Treewalk.Parser

/-! ## The tokens that are discarded -/

/-- The tokens that are discarded and those that reading goes on with. -/
structure Discards (discarded next : List Token) : Prop where
  /-- One token is discarded in any case, if there is any. -/
  first : discarded = [] → next = []
  later : ∀ t ∈ discarded.tail, startsStatement t = false
  unended : ∀ t ∈ discarded.dropLast, t.lexeme ≠ .symbol .semicolon
  /-- Reading goes on after a semicolon or with a token that starts a statement. -/
  boundary : ∀ t ∈ next.head?, startsStatement t = true ∨
    ∃ last ∈ discarded.getLast?, last.lexeme = .symbol .semicolon

/-- Discarding is over at the token that was discarded for sure, if nothing else is skipped. -/
theorem discards_singleton {last : Token} {next : List Token} : Discards [last] next ↔
    ∀ t ∈ next.head?, startsStatement t = true ∨ last.lexeme = .symbol .semicolon := by
  constructor
  · intro h t ht
    simpa using h.boundary t ht
  · intro h
    exact ⟨by simp, by simp, by simp, fun t ht => by simpa using h t ht⟩

/-- Discarding goes on with every token that begins no statement, behind one that is no semicolon. -/
theorem discards_cons {last t : Token} {skipped next : List Token} :
    Discards (last :: t :: skipped) next ↔ last.lexeme ≠ .symbol .semicolon ∧
      startsStatement t = false ∧ Discards (t :: skipped) next := by
  constructor
  · intro h
    obtain ⟨ht, hlater⟩ := List.forall_mem_cons.1 h.later
    obtain ⟨hlast, hunended⟩ := List.forall_mem_cons.1 h.unended
    exact ⟨hlast, ht, by simp, hlater, hunended, h.boundary⟩
  · rintro ⟨hlast, ht, h⟩
    refine ⟨by simp, ?_, ?_, h.boundary⟩
    · exact List.forall_mem_cons.2 ⟨ht, h.later⟩
    · exact List.forall_mem_cons.2 ⟨hlast, h.unended⟩

/-- What `skipAfter` skips is what is discarded. -/
theorem skipAfter_eq_iff {last : Token} {skipped next : List Token} :
    skipAfter last (skipped ++ next) = next ↔ Discards (last :: skipped) next := by
  -- By induction on the tokens that are skipped, each of which is the one before the next.
  induction skipped generalizing last with
  | nil =>
    rw [discards_singleton]
    cases next with
    | nil => simp [skipAfter]
    | cons t next =>
      rw [List.nil_append, skipAfter]
      split
      · next hstop => simpa using hstop.symm
      · next hstop =>
        -- Whatever is skipped more would be missing behind.
        have hlength := skipAfter_length t next
        refine iff_of_false (fun heq => ?_) fun h => hstop (h t rfl).symm
        rw [heq, List.length_cons] at hlength
        omega
  | cons t skipped ih =>
    rw [discards_cons, List.cons_append, skipAfter]
    split
    · next hstop =>
      refine iff_of_false (fun heq => ?_) fun h => ?_
      · have hlength := congrArg List.length heq
        simp only [List.length_cons, List.length_append] at hlength
        omega
      · exact hstop.elim h.1 (Bool.eq_false_iff.1 h.2.1)
    · next hstop =>
      obtain ⟨hlast, ht⟩ := not_or.1 hstop
      rw [ih]
      exact ⟨fun h => ⟨hlast, Bool.eq_false_iff.2 ht, h⟩, fun h => h.2.2⟩

/-- What is discarded is decided by what it is: reading goes on with these tokens and no others. -/
theorem discards_iff {discarded next : List Token} :
    Discards discarded next ↔ resume (discarded ++ next) = next := by
  cases discarded with
  | nil =>
    refine ⟨fun h => by rw [h.first rfl]; rfl, fun h => ?_⟩
    have hlength := resume_length next
    rw [List.nil_append] at h
    rw [h] at hlength
    obtain rfl : next = [] := List.length_eq_zero_iff.1 (by omega)
    exact ⟨fun _ => rfl, nofun, nofun, nofun⟩
  | cons t discarded => exact skipAfter_eq_iff.symm

/-- A token that starts a statement is discarded only if it is the first. -/
theorem Discards.eq_head {discarded next : List Token} (h : Discards discarded next) {t : Token}
    (ht : t ∈ discarded) (hstarts : startsStatement t = true) : discarded.head? = some t := by
  cases discarded with
  | nil => cases ht
  | cons u discarded =>
    obtain rfl | hlater := List.mem_cons.1 ht
    · rfl
    · have := h.later t hlater
      rw [hstarts] at this
      cases this

/-- The first of the tokens is discarded. -/
theorem Discards.head?_append {discarded next : List Token} (h : Discards discarded next) :
    (discarded ++ next).head? = discarded.head? := by
  cases discarded with
  | nil => rw [h.first rfl]; rfl
  | cons t discarded => rfl

/-! ## Declarations that are given up -/

/-- A declaration that is given up, at any depth and among any tokens: it breaks off with one last report.
The declarations after it are read from where the discarded tokens end. Among these a token that starts a
statement is the first one, before which the declaration broke off; and where the last report is at such
a token, it is discarded. -/
theorem run_declarations_givenUp (depth : Nat) (stop : Token → Bool) (t : Token) (ts : List Token)
    (ht : stop t = false)
    (h : ((strictDeclaration (Level.ofDepth depth)).run (t :: ts)).outcome = .error .broken) :
    ∃ e discarded next,
      ((strictDeclaration (Level.ofDepth depth)).run (t :: ts)).BreaksOff e ∧
      ((strictDeclaration (Level.ofDepth depth)).run (t :: ts)).rest = discarded ++ next ∧
      Discards discarded next ∧
      (declarations (Level.ofDepth depth) stop).run (t :: ts) =
        ((declarations (Level.ofDepth depth) stop).run next).reporting
          ((strictDeclaration (Level.ofDepth depth)).run (t :: ts)).errors ∧
      (∀ u, startsStatement u = true →
        (u ∈ discarded ↔ (discarded ++ next).head? = some u) ∧
        (e.place = some u → (discarded ++ next).head? = some u)) := by
  obtain ⟨e, he⟩ := (built_strictDeclaration (Level.built_ofDepth depth)).breaksOff (t :: ts) h
  have hrun := run_declarations_resume ht h
  generalize ((strictDeclaration (Level.ofDepth depth)).run (t :: ts)) = r at he hrun ⊢
  obtain ⟨discarded, hrest⟩ := resume_suffix r.rest
  have hdiscards : Discards discarded (resume r.rest) := discards_iff.2 (by rw [hrest])
  refine ⟨e, discarded, resume r.rest, he, hrest.symm, hdiscards, hrun, ?_⟩
  intro u hu
  refine ⟨?_, fun hplace => ?_⟩
  · rw [hdiscards.head?_append]
    exact ⟨fun hmem => hdiscards.eq_head hmem hu, List.mem_of_head?⟩
  · rw [hrest]
    obtain heq | ⟨-, equals, hequals, hlexeme⟩ := he.2.2
    · rw [← heq, hplace]
    · -- An equals sign starts no statement.
      rw [hplace] at hequals
      cases hequals
      obtain ⟨lexeme, line⟩ := u
      simp only at hlexeme
      subst hlexeme
      cases hu

/-- Two statements, the first of which lacks its semicolon: `print a print b;`. -/
def twoPrints : List Token :=
  [word .print 1, ident ⟨"a", 1⟩, word .print 1, ident ⟨"b", 1⟩, sym .semicolon 1]

/-- The first of two statements breaks off at the second, before its keyword. -/
theorem breaks_twoPrints :
    (strictDeclaration (Level.ofDepth 4)).Breaks twoPrints (twoPrints.drop 2) .printEnd := by
  have hforeign : Foreign .printEnd (twoPrints.drop 2) := by
    intro t ht
    cases ht
    exact ⟨nofun, rfl, nofun⟩
  have hawaits : Awaits 4 (.statement false) [word .print 1, ident ⟨"a", 1⟩] .printEnd :=
    .print (.variable ⟨"a", 1⟩)
  have hstatement := hawaits.breaks hforeign (.statement false)
  calc (strictDeclaration (Level.ofDepth 4)).run twoPrints
      = (declarationIf (Level.ofDepth 4) false).run twoPrints := run_strictDeclaration _ _
    _ = (statement (Level.ofDepth 4)).run twoPrints := run_select_none rfl _
    _ = ⟨.error .broken, _, _⟩ := hstatement

/-- The first of two statements is given up, and the keyword of the second is discarded. -/
theorem run_declarations_givenUp_twoPrints :
    ((strictDeclaration (Level.ofDepth 4)).run twoPrints).outcome = .error .broken ∧
    ∃ e discarded next,
      ((strictDeclaration (Level.ofDepth 4)).run twoPrints).BreaksOff e ∧
      twoPrints.drop 2 = discarded ++ next ∧
      Discards discarded next ∧
      parseProgram 4 twoPrints = (parseProgram 4 next).reporting [⟨some (word .print 1), .printEnd⟩] ∧
      word .print 1 ∈ discarded := by
  have hbreaks : (strictDeclaration (Level.ofDepth 4)).run twoPrints = _ := breaks_twoPrints
  have hbroken : ((strictDeclaration (Level.ofDepth 4)).run twoPrints).outcome = .error .broken := by
    rw [hbreaks]
  -- Two tokens are read before parsing breaks, at the second `print`.
  obtain ⟨e, discarded, next, he, hsplit, hdiscards, hrun, hstarts⟩ :=
    run_declarations_givenUp 4 (fun _ => false) _ _ rfl hbroken
  have hrest : twoPrints.drop 2 = discarded ++ next := (congrArg Parsed.rest hbreaks).symm.trans hsplit
  refine ⟨hbroken, e, discarded, next, he, hrest, hdiscards, ?_, ?_⟩
  · exact hrun.trans (congrArg (Parsed.reporting _) (congrArg Parsed.errors hbreaks))
  -- The second `print` is skipped for sure, although it begins a statement.
  · exact (hstarts (word .print 1) rfl).1.2 (by rw [← hrest]; rfl)

/-- A statement is hidden by the missing semicolon of the one before: the report is at its keyword, and
reading does not go on with it, though without the first statement it is read. -/
theorem parseProgram_hiddenStatement :
    parseProgram 4 twoPrints = ⟨.ok [], [], [⟨some (word .print 1), .printEnd⟩]⟩ ∧
      parseProgram 4 (twoPrints.drop 2) = ⟨.ok [.print (.variable ⟨"b", 1⟩ ())], [], []⟩ := by
  constructor
  · have hrun := @run_declarations_broken _ (fun _ => false) _ _ _ _ rfl breaks_twoPrints
    have hnone : parseProgram 4 [] = ⟨.ok [], [], []⟩ := reads_of_derives .noDeclaration
    exact hrun.trans (congrArg (Parsed.reporting · _) hnone)
  · exact reads_of_derives (.declarations (.statement (.print (.variable ⟨"b", 1⟩))) .noDeclaration)

end Grammar

end Treewalk
