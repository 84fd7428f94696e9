import Treewalk.Proofs.Grammar.Brackets
import Treewalk.Proofs.Session.Verdict
import Treewalk.Proofs.Token.Spaced

/-!
# Texts that wait for more

A shell waits for another line if a text opens more braces or parentheses than it closes. Nothing is left
open by a text that is scanned and parsed without a report, since its brackets are nested properly
(`Grammar.wellBracketed_of_parsed`); so a text for which a shell waits ends with static errors if it is
run as it stands (`Session.complete_or_static`).
-/

namespace Treewalk

/-- The line on which a text begins has no influence on its lexemes. -/
theorem Scan.lexemes_ofText (text : String) (line line' : Int) :
    (ofText text line).tokens.map Token.lexeme = (ofText text line').tokens.map Token.lexeme :=
  (lexemes_ofPieces line _).trans (lexemes_ofPieces line' _).symm

/-- A text whose brackets are nested properly leaves nothing open. -/
theorem needsContinuation_of_wellBracketed {text : String} {line : Int}
    (h : Grammar.WellBracketed (Scan.ofText text line).tokens) : needsContinuation text = false := by
  have hbraces := h.count_eq .braces
  have hparentheses := h.count_eq .parentheses
  rw [Scan.lexemes_ofText text line 1] at hbraces hparentheses
  unfold needsContinuation
  simp only [hbraces, hparentheses, Nat.lt_irrefl, decide_false, Bool.or_false]

namespace Session

/-- A text that leaves something open is not accepted. -/
theorem not_accepts_of_needsContinuation {s : Session} {text : String}
    (h : needsContinuation text = true) : ¬∃ p, s.Accepts text p := by
  rintro ⟨p, hp⟩
  have hnested := Grammar.wellBracketed_of_parsed hp.parsed
  rw [needsContinuation_of_wellBracketed hnested] at h
  cases h

/-- Tokens that are parsed without a report have their braces and parentheses nested properly. So a text
that is scanned and parsed without a report leaves nothing open, and no shell waits for more after it. A
text that leaves something open ends with static errors in every session. -/
theorem complete_or_static :
    (∀ depth tokens p, (parseProgram depth tokens).errors = [] →
      (parseProgram depth tokens).outcome = .ok p → Grammar.WellBracketed tokens) ∧
    (∀ text line depth p, (Scan.ofText text line).faults = [] →
      (parseProgram depth (Scan.ofText text line).tokens).errors = [] →
      (parseProgram depth (Scan.ofText text line).tokens).outcome = .ok p →
      needsContinuation text = false) ∧
    ∀ s text, needsContinuation text = true →
      (s.execute text).2 = .ok .error ∧ EndsStatic s (s.execute text).1 .error := by
  have hnested : ∀ depth tokens p, (parseProgram depth tokens).errors = [] →
      (parseProgram depth tokens).outcome = .ok p → Grammar.WellBracketed tokens :=
    fun depth tokens p herrors hp =>
      Grammar.wellBracketed_of_parsed (Grammar.parseProgram_of_outcome herrors hp)
  -- A well bracketed text leaves nothing open, so an open one is not accepted.
  refine ⟨hnested, fun text line depth p _ herrors hp => ?_, fun s text hopen => ?_⟩
  · exact needsContinuation_of_wellBracketed (hnested depth _ p herrors hp)
  · have hrefused : ¬∃ p, s.Accepts text p := not_accepts_of_needsContinuation hopen
    obtain ⟨log, line, new, hexecute, -, -⟩ := execute_of_not_accepts hrefused
    have hresult : (s.execute text).2 = .ok .error := by rw [hexecute]
    exact ⟨hresult, endsStatic_of_not_accepts hrefused hresult⟩

/-- A call whose argument is a lambda. -/
def lambdaArgument : List (Stmt Unit) :=
  [.expression (.call (.variable ⟨"f", 1⟩ ()) 1
    [.lambda (.mk [] [.return 1 (some (.grouping (.variable ⟨"x", 1⟩ ())))])])]

/-- The text of `lambdaArgument` is parsed without a report. -/
theorem parseProgram_lambdaArgument :
    parseProgram 300 (Scan.ofText "f(fn()\x7breturn(x);\x7d);" 1).tokens =
      ⟨.ok lambdaArgument, [], []⟩ := by
  have htokens : (Scan.ofText "f(fn()\x7breturn(x);\x7d);" 1).tokens =
      [Grammar.ident ⟨"f", 1⟩, Grammar.sym .leftParen 1, Grammar.word .fn 1, Grammar.sym .leftParen 1,
        Grammar.sym .rightParen 1, Grammar.sym .leftBrace 1, Grammar.word .return_ 1,
        Grammar.sym .leftParen 1, Grammar.ident ⟨"x", 1⟩, Grammar.sym .rightParen 1,
        Grammar.sym .semicolon 1, Grammar.sym .rightBrace 1, Grammar.sym .rightParen 1,
        Grammar.sym .semicolon 1] := by decide +kernel
  -- The argument of the call has a body, in which a grouping stands.
  have hbody : Grammar.Derives true 298 .declarations
      [Grammar.word .return_ 1, Grammar.sym .leftParen 1, Grammar.ident ⟨"x", 1⟩,
        Grammar.sym .rightParen 1, Grammar.sym .semicolon 1]
      [.return 1 (some (.grouping (.variable ⟨"x", 1⟩ ())))] :=
    .declarations (.statement (.return (.clause (.of_call (.tighter (.grouping (.variable _)))))))
      .noDeclaration
  rw [htokens]
  exact Grammar.reads_of_derives (.declarations (.statement (.expression (.of_call (.call (d := 299)
    (.tighter (.atom rfl)) (.lastArgument (.of_call (.tighter (.lambda (.routine .none hbody)))))
    (by decide))))) .noDeclaration)

/-- A call whose argument is a lambda leaves nothing open. Without its last parenthesis it does, and it
ends with a static error in a new session. -/
theorem complete_or_static_lambdaArgument :
    Grammar.WellBracketed (Scan.ofText "f(fn()\x7breturn(x);\x7d);" 1).tokens ∧
      needsContinuation "f(fn()\x7breturn(x);\x7d);" = false ∧
      needsContinuation "f(fn()\x7breturn(x);\x7d;" = true ∧
      EndsStatic (.new 0) ((Session.new 0).execute "f(fn()\x7breturn(x);\x7d;").1 .error := by
  have hfaults : (Scan.ofText "f(fn()\x7breturn(x);\x7d);" 1).faults = [] := by decide +kernel
  have herrors := congrArg Parsed.errors parseProgram_lambdaArgument
  have houtcome := congrArg Parsed.outcome parseProgram_lambdaArgument
  have hopen : needsContinuation "f(fn()\x7breturn(x);\x7d;" = true := by decide +kernel
  exact ⟨complete_or_static.1 _ _ _ herrors houtcome,
    complete_or_static.2.1 _ _ _ _ hfaults herrors houtcome, hopen,
    (complete_or_static.2.2 _ _ hopen).2⟩

end Session

end Treewalk
