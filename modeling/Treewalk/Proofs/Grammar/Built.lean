import Treewalk.Proofs.Grammar.Plan

/-!
# What the parsers of the grammar are built of

A plan says how a parser is put together, so that it can be carried out in another way. Where it matters
only what the parser is put together of, that there is a plan is enough (`Plan.built`).
-/

namespace Treewalk.Parser

/-- The parsers that are put together as those of the grammar are. -/
inductive Built : ∀ {α : Type}, Parser α → Prop
  | pure {α : Type} (a : α) : Built (pure a : Parser α)
  | tooDeep {α : Type} : Built (tooDeep : Parser α)
  | fail {α : Type} (fault : SyntaxFault) : Built (fail fault : Parser α)
  | failAt {α : Type} {t : Token} (ht : t.lexeme = .symbol .equal) :
    Built (failAt t .assignmentTarget : Parser α)
  | note (fault : SyntaxFault) : Built (note fault)
  | lookahead : Built lookahead
  | bind {α β : Type} {p : Parser α} {f : α → Parser β} (hp : Built p) (hf : ∀ a, Built (f a)) :
    Built (p >>= f)
  | select {α : Type} {choose : Token → Option (Parser α)} {otherwise : Parser α}
    (hc : ∀ t p, choose t = some p → Built p) (ho : Built otherwise) : Built (select choose otherwise)
  | extend {β : Type} {next : β → Token → Option (Parser β)}
    (h : ∀ b t p, next b t = some p → Built p) (b : β) : Built (extend next b)
  | repeatUntil {α : Type} (stop : Token → Bool) {item : Parser α} (progress : item.Progress)
    (h : Built item) : Built (repeatUntil stop item progress)
  | recovered {α : Type} {p : Parser α} (h : Built p) : Built (Grammar.recovered p)

/-- What has a plan is built so. -/
theorem Plan.built {α : Type} {p : Parser α} (plan : Plan p) : p.Built := by
  -- One case for each step of a plan; the steps of a look ahead are put together from `lookahead`.
  induction plan with
  | pure a => exact .pure a
  | tooDeep => exact .tooDeep
  | fail fault => exact .fail fault
  | failAt t ht => exact .failAt ht
  | note fault => exact .note fault
  | nextIs lexeme =>
    refine .bind .lookahead fun us => ?_
    cases us with
    | nil => exact .pure _
    | cons t us => exact .pure _
  | lookForFunction hf ih => exact .bind .lookahead fun us => ih _
  | bind hp hf ihp ihf => exact ihp.bind ihf
  | choice c hp hq ihp ihq =>
    split
    · exact ihp
    · exact ihq
  | select hc ho ihc iho => exact .select ihc iho
  | extend hn b ih => exact .extend ih b
  | repeatUntil stop progress h ih => exact .repeatUntil stop progress ih
  | recovered h ih => exact .recovered ih

end Treewalk.Parser

namespace Treewalk.Grammar

/-- All parsers of a level are built, by induction on its depth. -/
theorem Level.built_ofDepth (depth : Nat) : Nonempty (Level.ofDepth depth).Plan :=
  ⟨planOfDepth depth⟩

/-- So is the parser of one declaration. -/
theorem built_strictDeclaration {inner : Level} (h : Nonempty inner.Plan) :
    (strictDeclaration inner).Built :=
  h.elim fun plan => (strictDeclarationPlan plan).built

end Treewalk.Grammar
