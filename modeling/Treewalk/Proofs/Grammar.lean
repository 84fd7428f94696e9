import Treewalk.Proofs.Grammar.Completeness
import Treewalk.Proofs.Grammar.Nearest

/-!
# The parser accepts exactly its grammar

Tokens are parsed without a report if and only if they are a program of the grammar in
`Grammar/Derivation.lean`, and what the parser gives back then is the tree of the derivation in which
every `else` belongs to the nearest open `if` (`parseProgram_accepts`). There is only one such tree
(`IsTreeOf.unique`), so nothing is dropped and nothing is added.
-/

namespace Treewalk.Grammar

open Treewalk.Parser

/-- Without a report, the parser gives back the tree of the tokens, whatever the number of levels. -/
theorem parseProgram_eq_iff {depth : Nat} {tokens : List Token} {program : List (Stmt Unit)} :
    parseProgram depth tokens = ⟨.ok program, [], []⟩ ↔
      Derives true depth .declarations tokens program :=
  ⟨derives_of_reads, reads_of_derives⟩

/-- Tokens have at most one tree. -/
theorem IsTreeOf.unique {program program' : List (Stmt Unit)} {tokens : List Token}
    (h : IsTreeOf program tokens) (h' : IsTreeOf program' tokens) : program = program' := by
  obtain ⟨d, h⟩ := h
  obtain ⟨d', h'⟩ := h'
  have hread := reads_of_derives (h.of_length_le (Nat.le_refl _))
  rw [reads_of_derives (h'.of_length_le (Nat.le_refl _))] at hread
  injection hread with hprogram
  injection hprogram with hprogram
  exact hprogram.symm

/-- Where nothing is reported and statements are given back, all tokens were read. -/
theorem parseProgram_of_outcome {depth : Nat} {tokens : List Token} {program : List (Stmt Unit)}
    (herrors : (parseProgram depth tokens).errors = [])
    (houtcome : (parseProgram depth tokens).outcome = .ok program) :
    parseProgram depth tokens = ⟨.ok program, [], []⟩ := by
  rcases hrun : parseProgram depth tokens with ⟨outcome, rest, errors⟩
  rw [hrun] at herrors houtcome
  simp only at herrors houtcome
  subst herrors houtcome
  -- Nothing stops the declarations of a program, so no token is left.
  obtain ⟨os, hos, -⟩ := reads_map.1 hrun
  have hstops := (reads_repeatUntil.1 hos).stops
  cases rest with
  | nil => rfl
  | cons t rest => cases hstops t rfl

/-- If nothing is reported then statements are given back, as long as the levels are not fewer than the
tokens. -/
theorem parseProgram_of_errors_eq_nil {depth : Nat} {tokens : List Token}
    (hdepth : tokens.length ≤ depth) (h : (parseProgram depth tokens).errors = []) :
    ∃ program, parseProgram depth tokens = ⟨.ok program, [], []⟩ := by
  have hhalts := halts_declarations (Level.halts_ofDepth depth) (fun _ => false) tokens
  cases houtcome : (parseProgram depth tokens).outcome with
  | ok program => exact ⟨program, parseProgram_of_outcome h houtcome⟩
  | error halt =>
    cases halt with
    | broken => exact absurd h (hhalts.1 houtcome)
    | tooDeep =>
      have := hhalts.2 houtcome
      omega

/-- One program after another is a program. -/
theorem parseProgram_append {depth : Nat} {ts us : List Token} {p q : List (Stmt Unit)}
    (hp : parseProgram depth ts = ⟨.ok p, [], []⟩) (hq : parseProgram depth us = ⟨.ok q, [], []⟩) :
    parseProgram depth (ts ++ us) = ⟨.ok (p ++ q), [], []⟩ := by
  rw [parseProgram_eq_iff] at hp hq ⊢
  exact hp.append hq

/-- Tokens are parsed without a report exactly if they are a program of the grammar, and then what is
given back is their only tree. -/
theorem parseProgram_accepts (tokens : List Token) (depth : Nat) (hdepth : tokens.length ≤ depth) :
    ((parseProgram depth tokens).errors = [] ↔ IsProgram tokens) ∧
      ((parseProgram depth tokens).errors = [] →
        ∃ program, parseProgram depth tokens = ⟨.ok program, [], []⟩ ∧
          ∀ other, IsTreeOf other tokens ↔ other = program) := by
  refine ⟨⟨fun h => ?_, fun h => ?_⟩, fun h => ?_⟩
  -- What is read without an error is derived, with the nearest `else`.
  · obtain ⟨program, hrun⟩ := parseProgram_of_errors_eq_nil hdepth h
    exact ⟨depth, program, (derives_of_reads hrun).forget⟩
  -- A derivation with any `else` has one with the nearest, which the parser follows.
  · obtain ⟨program, hprogram⟩ := exists_nearest h
    rw [reads_of_derives (hprogram.of_length_le hdepth)]
  · obtain ⟨program, hrun⟩ := parseProgram_of_errors_eq_nil hdepth h
    -- And there is only one tree with the nearest `else`.
    have htree : IsTreeOf program tokens := ⟨depth, derives_of_reads hrun⟩
    refine ⟨program, hrun, fun other => ⟨fun hother => hother.unique htree, ?_⟩⟩
    rintro rfl
    exact htree

/-- Two conditionals, one inside the other, and one `else` after them. -/
def twoConditionals : List Token :=
  [word .if_ 1, sym .leftParen 1, word .nil 1, sym .rightParen 1, word .if_ 1, sym .leftParen 1,
    word .nil 1, sym .rightParen 1, word .return_ 1, sym .semicolon 1, word .else_ 2, word .return_ 2,
    sym .semicolon 2]

/-- An `else` after two conditionals belongs to the second. -/
theorem parseProgram_accepts_twoConditionals : (parseProgram 20 twoConditionals).outcome =
    .ok [.branch (.literal .nil)
      (.branch (.literal .nil) (.return 1 none) (some (.return 2 none))) none] := by
  have hcondition : ∀ d, Derives true d (.expression .assignment) [word .nil 1] (.literal .nil) :=
    fun d => .tighter <| .tighter <| .tighter <| .tighter <| .tighter <| .tighter <| .tighter <|
      .tighter <| .tighter <| .atom rfl
  have hreturn : ∀ d line, Derives true d (.statement false)
      [word .return_ line, sym .semicolon line] (.return line none) := fun d line => .return .noClause
  have hinner : Derives true 19 (.statement false) (twoConditionals.drop 4) _ :=
    .ifElse (hcondition 19) (hreturn 18 1) (fun _ => rfl) (hreturn 18 2)
  have hprogram : Derives true 20 .declarations twoConditionals _ :=
    .declarations (.statement (.ifThen (hcondition 20) hinner)) .noDeclaration
  -- The parser finds the tree of a derivation, so the derivation is all there is to give.
  have haccepts := parseProgram_accepts twoConditionals 20 (by decide)
  obtain ⟨program, hrun, htree⟩ := haccepts.2 (haccepts.1.2 ⟨20, _, hprogram.forget⟩)
  have heq := (htree _).1 ⟨20, hprogram⟩
  subst heq
  exact congrArg Parsed.outcome hrun

end Treewalk.Grammar
