import Treewalk.Proofs.Grammar
import Treewalk.Proofs.Grammar.Worded
import Treewalk.Proofs.Outline.Reading

/-!
# The outline of a program is the outline of no other

Programs of the grammar are legible if the names and the numbers among their tokens are
(`Derives.legible`). So they can be read back from their outlines, and two programs with the same outline
are the same but for their lines (`programOutline_inj`).
-/

namespace Treewalk

/-! ## Programs are legible -/

/-- A lexeme can be told from its text in an outline. -/
def Lexeme.Legible : Lexeme → Prop
  | identifier name => IsName name
  | number _ value => Number.IsMagnitude value
  | _ => True

namespace Grammar

/-- The tree of a phrase is legible. -/
def LegibleTree : (p : Phrase) → p.Tree → Prop
  | .expression _, x => Node.Legible (.expression x)
  | .clause, x => ∀ y ∈ x, Node.Legible (.expression y)
  | .arguments, xs => Node.Legible (.arguments xs)
  | .routine, r => Node.Legible (.routine .function r)
  | .methods, ms => Node.Legible (.methods ms)
  | .varDeclaration, s | .statement _, s | .declaration _, s => Node.Legible (.statement s)
  | .loopStart, s => ∀ s' ∈ s, Node.Legible (.statement s')
  | .declarations, ss => Node.Legible (.body ss)

/-- A token that is an expression on its own is legible if its lexeme is. -/
theorem legible_atom {t : Token} {e : Expr Unit} (h : atom? t = some e) (ht : t.lexeme.Legible) :
    Node.Legible (.expression e) := by
  cases isAtom_of_atom? h with
  | number => exact .literal ht
  | this => exact .this
  | «variable» => exact .variable ht
  | _ => exact .literal trivial

/-- A `for` is legible, in the form of its tree, if its parts are. -/
theorem legible_forLoop {i : Option (Stmt Unit)} {c n : Option (Expr Unit)} {s : Stmt Unit}
    (hi : LegibleTree .loopStart i) (hc : LegibleTree .clause c) (hn : LegibleTree .clause n)
    (hs : Node.Legible (.statement s)) : Node.Legible (.statement (Stmt.forLoop i c n s)) := by
  -- Without a condition the loop has a literal that is always true.
  have hcondition : Node.Legible (.expression (c.getD (.literal (.boolean true)))) := by
    cases c with
    | none => exact .literal trivial
    | some c => exact hc c rfl
  have hloop : Node.Legible (.statement (Stmt.forLoop none c n s)) := by
    -- The step of the loop stands in a block behind the body.
    cases n with
    | none => exact .while hcondition hs
    | some n =>
      have hnext := Node.Legible.statements (.expression (hn n rfl)) .noStatements
      exact .while hcondition (.block (.statements hs hnext))
  cases i with
  | none => exact hloop
  | some t => exact .block (.statements (hi t rfl) (.statements hloop .noStatements))

/-- Trees of the grammar are legible if their tokens are. -/
theorem Derives.legible {nearest : Bool} {d : Nat} {p : Phrase} {ts : List Token} {t : p.Tree}
    (h : Derives nearest d p ts t) (hts : ∀ t ∈ ts, t.lexeme.Legible) : LegibleTree p t := by
  have hname : ∀ {ts : List Token}, (∀ t ∈ ts, t.lexeme.Legible) →
      ∀ n : Name, ident n ∈ ts → IsName n.text := fun hts n hn => hts _ hn
  -- What is read by a part is among what is read by the whole.
  induction h with
  | atom h => exact legible_atom h (hts _ (List.mem_singleton_self _))
  | grouping h ih => exact .grouping (ih fun t ht => hts t (by simp [ht]))
  | lambda h ih => exact .lambda (ih fun t ht => hts t (by simp [ht]))
  | callNothing h ih => exact .call (ih fun t ht => hts t (by simp [ht])) .noArguments
  | call h ha count ih iha =>
    exact .call (ih fun t ht => hts t (by simp [ht])) (iha fun t ht => hts t (by simp [ht]))
  | @get d ts e n l h ih => exact .get (ih fun t ht => hts t (by simp [ht])) (hname hts n (by simp))
  | unary _ h ih => exact .unary (ih fun t ht => hts t (by simp [ht]))
  | join hl hop hr ihl ihr =>
    have hleft := ihl fun t ht => hts t (by simp [ht])
    have hright := ihr fun t ht => hts t (by simp [ht])
    obtain ⟨op, rfl⟩ | ⟨op, line, rfl⟩ := join?_tree hop
    · exact .logical hleft hright
    · exact .binary hleft hright
  | tighter h ih => exact ih hts
  | @assign d ts n v l h ih => exact .assign (hname hts n (by simp)) (ih fun t ht => hts t (by simp [ht]))
  | @set d ts us o v n l l' h hv ih ihv =>
    exact .set (ih fun t ht => hts t (by simp [ht])) (hname hts n (by simp))
      (ihv fun t ht => hts t (by simp [ht]))
  | noClause | noStart => exact nofun
  | clause h ih =>
    intro y hy
    cases hy
    exact ih hts
  | lastArgument h ih => exact .arguments (ih hts) .noArguments
  | argument h later ih ihl =>
    exact .arguments (ih fun t ht => hts t (by simp [ht])) (ihl fun t ht => hts t (by simp [ht]))
  | routine hp h ih =>
    exact .routine (fun n hn => hname hts n (by simp [hp.mem hn])) (ih fun t ht => hts t (by simp [ht]))
  | noMethod => exact .noMethods
  | @method d ts us n r ms h later ih ihl =>
    exact .methods (hname hts n (by simp)) (ih fun t ht => hts t (by simp [ht]))
      (ihl fun t ht => hts t (by simp [ht]))
  | expression h ih => exact .expression (ih fun t ht => hts t (by simp [ht]))
  | print h ih => exact .print (ih fun t ht => hts t (by simp [ht]))
  | @«return» d ts v line l h ih =>
    have hv := ih fun t ht => hts t (by simp [ht])
    cases v with
    | none => exact .returnNothing
    | some v => exact .return (hv v rfl)
  | block h ih => exact .block (ih fun t ht => hts t (by simp [ht]))
  | ifThen hc h ihc ih =>
    exact .ifThen (ihc fun t ht => hts t (by simp [ht])) (ih fun t ht => hts t (by simp [ht]))
  | ifElse hc h closed h' ihc ih ih' =>
    exact .ifElse (ihc fun t ht => hts t (by simp [ht])) (ih fun t ht => hts t (by simp [ht]))
      (ih' fun t ht => hts t (by simp [ht]))
  | «while» hc h ihc ih =>
    exact .while (ihc fun t ht => hts t (by simp [ht])) (ih fun t ht => hts t (by simp [ht]))
  | «for» hi hc hn h ihi ihc ihn ih =>
    exact legible_forLoop (ihi fun t ht => hts t (by simp [ht])) (ihc fun t ht => hts t (by simp [ht]))
      (ihn fun t ht => hts t (by simp [ht])) (ih fun t ht => hts t (by simp [ht]))
  | varStart h ih =>
    intro t ht
    cases ht
    exact ih hts
  | expressionStart h ih =>
    intro t ht
    cases ht
    exact .expression (ih fun t ht => hts t (by simp [ht]))
  | @unset d n l l' => exact .unset (hname hts n (by simp))
  | @var d ts n e l l' l'' h ih =>
    exact .var (hname hts n (by simp)) (ih fun t ht => hts t (by simp [ht]))
  | varDeclaration h ih | statement h ih => exact ih hts
  | @function d ts n r l h ih =>
    exact .function (hname hts n (by simp)) (ih fun t ht => hts t (by simp [ht]))
  | @«class» d ts n ms l₁ l₂ l₃ h ih =>
    exact .class (hname hts n (by simp)) (ih fun t ht => hts t (by simp [ht]))
  | noDeclaration => exact .noStatements
  | declarations h later ih ihl =>
    exact .statements (ih fun t ht => hts t (by simp [ht])) (ihl fun t ht => hts t (by simp [ht]))

end Grammar

/-! ## Outlines of programs -/

/-- Legible programs with the same outline are the same but for their lines. -/
theorem allWithoutLines_eq_of_programOutline {p q : List (Stmt Unit)} (hp : Node.Legible (.body p))
    (hq : Node.Legible (.body q)) (h : programOutline p = programOutline q) :
    Stmt.allWithoutLines p = Stmt.allWithoutLines q := by
  have hitems : Stmt.items p = Stmt.items q := by
    have htext : ∀ p : List (Stmt Unit), (programOutline p).toList =
        ['\n'].intercalate (Item.texts (Stmt.items p)) ++ [] := fun p => by
      simp [programOutline, Stmt.toList_outlines]
    have hjoined := congrArg String.toList h
    rw [htext, htext] at hjoined
    have hends : Item.EndsList '\n' [] := ⟨nofun, nofun⟩
    exact (Item.joined_inj rfl (fun item hitem => (hp.allPlain item hitem).readOnce) hp.allPlain
      hq.allPlain hends hends hjoined).1
  -- As different numbers are displayed differently, some function reads them all.
  obtain ⟨number, hnumber⟩ : ∃ number : String → Float,
      ∀ x, Number.IsMagnitude x → number (Number.display x) = x := by
    refine ⟨Function.invFunOn Number.display {x | Number.IsMagnitude x}, fun x hx => ?_⟩
    have hinj : Set.InjOn Number.display {x | Number.IsMagnitude x} :=
      fun x hx y hy => Number.display_inj hx hy
    exact hinj.leftInvOn_invFunOn hx
  have hp' : Item.stmts? number (Stmt.items p) = _ := hp.readsBack hnumber
  have hq' : Item.stmts? number (Stmt.items q) = _ := hq.readsBack hnumber
  rw [hitems, hq'] at hp'
  exact (Option.some.inj hp').symm

/-! ## Programs of tokens -/

/-- A lexeme that a text can have is legible, as long as its number is finite. -/
theorem Lexeme.Fits.legible {lexeme : Lexeme} {rest : List Char} (h : lexeme.Fits rest)
    (hfinite : ∀ digits x, lexeme = .number digits x → x.isFinite = true) : lexeme.Legible := by
  cases lexeme with
  | identifier name => exact h.isName
  | number digits x =>
    obtain ⟨-, whole, fraction, -, rfl⟩ := h
    exact Number.isMagnitude_toFloat (hfinite digits _ rfl)
  | _ => trivial

namespace Grammar

/-- A program is read, without a diagnostic, from tokens that texts are made of, among them no number too
great to be finite. -/
structure ReadsFinite (depth : Nat) (tokens : List Token) (program : List (Stmt Unit)) : Prop where
  fits : ∀ t ∈ tokens, ∃ rest, t.lexeme.Fits rest
  finite : ∀ t ∈ tokens, ∀ digits x, t.lexeme = .number digits x → x.isFinite = true
  outcome : (parseProgram depth tokens).outcome = .ok program
  errors : (parseProgram depth tokens).errors = []

/-- Tokens that are read from a text with finite numbers give a legible program. -/
theorem ReadsFinite.legible {depth : Nat} {tokens : List Token} {program : List (Stmt Unit)}
    (h : ReadsFinite depth tokens program) : Node.Legible (.body program) := by
  have hderives := parseProgram_eq_iff.1 (parseProgram_of_outcome h.errors h.outcome)
  refine hderives.legible fun t ht => ?_
  obtain ⟨rest, hfits⟩ := h.fits t ht
  exact hfits.legible (h.finite t ht)

/-- Two programs with the same outline are the same node by node but for their lines. -/
theorem programOutline_inj {depth depth' : Nat} {ts us : List Token} {p q : List (Stmt Unit)}
    (hp : ReadsFinite depth ts p) (hq : ReadsFinite depth' us q)
    (h : programOutline p = programOutline q) : Stmt.allWithoutLines p = Stmt.allWithoutLines q :=
  allWithoutLines_eq_of_programOutline hp.legible hq.legible h

/-- A program with a number in it, read from two texts that differ in their lines and in the digits of the
number. -/
theorem programOutline_inj_respelled :
    let program (line : Int) : List (Stmt Unit) :=
      [.print (.variable ⟨"a", line⟩ ()), .print (.literal (.number (Number.ofDigits [1] [5])))]
    let ts := (Scan.ofText "print a; print 1.5;" 1).tokens
    let us := (Scan.ofText "print\na; print 1.50;" 1).tokens
    ReadsFinite 4 ts (program 1) ∧ ReadsFinite 4 us (program 2) ∧
      programOutline (program 1) = programOutline (program 2) ∧
      Stmt.allWithoutLines (program 1) = Stmt.allWithoutLines (program 2) := by
  intro program ts us
  let x := Number.ofDigits [1] [5]
  let tokens (line : Int) (digits : String) : List Token :=
    [word .print 1, ident ⟨"a", line⟩, sym .semicolon line,
      word .print line, ⟨.number digits x, line⟩, sym .semicolon line]
  -- The two texts are spaced differently and spell the number differently.
  have hts : ts = tokens 1 "1.5" := by decide +kernel
  have hus : us = tokens 2 "1.50" := by decide +kernel
  have hparse (line : Int) (digits : String) :
      parseProgram 4 (tokens line digits) = ⟨.ok (program line), [], []⟩ :=
    reads_of_derives (.declarations (.statement (.print (.variable ⟨"a", line⟩)))
      (.declarations (.statement (.print (.of_atom rfl))) .noDeclaration))
  -- Of the tokens only the number has something to show.
  have hx : x.isFinite = true := by decide +kernel
  have hfinite (line : Int) (digits : String) : ∀ t ∈ tokens line digits, ∀ digits y,
      t.lexeme = .number digits y → y.isFinite = true := by
    intro t ht digits y hy
    simp only [tokens, List.mem_cons, List.not_mem_nil, or_false] at ht
    rcases ht with rfl | rfl | rfl | rfl | rfl | rfl <;> cases hy
    exact hx
  have hp : ReadsFinite 4 ts (program 1) :=
    ⟨fun t => Scan.exists_fits, hts ▸ hfinite 1 _, by rw [hts, hparse], by rw [hts, hparse]⟩
  have hq : ReadsFinite 4 us (program 2) :=
    ⟨fun t => Scan.exists_fits, hus ▸ hfinite 2 _, by rw [hus, hparse], by rw [hus, hparse]⟩
  exact ⟨hp, hq, rfl, programOutline_inj hp hq rfl⟩

end Grammar

end Treewalk
