import Treewalk.Proofs.Grammar.Reading
import Treewalk.Proofs.Token.Continuation
import Treewalk.Proofs.Token.Coverage
import Treewalk.Proofs.Token.Pattern

/-!
# What is scanned at a quote

Wherever scanning a text comes to a quote, a string literal begins (`Log.scanText_quote`). It ends at the
first quote after it that follows no backslash and, if every quote follows one, at the last quote of the
text: this is the end that matching the pattern of string literals finds by going back. Without another
quote there is no literal, and all of the text is passed over.

The value of a literal is the text between the quotes with a quote for every backslash and quote
(`unescaped_isReplaced`).
-/

namespace Treewalk

/-! ## The value of a literal -/

/-- A text is cut at every `old`, and `result` is put together of its parts with `new` between them. -/
def IsReplaced (old new text result : List Char) : Prop :=
  ∃ part parts, (∀ p ∈ part :: parts, ¬ old <:+: p) ∧ text = old.intercalate (part :: parts) ∧
    result = new.intercalate (part :: parts)

/-- A character in front of the first part is in front of all. -/
theorem intercalate_cons_part (sep : List Char) (c : Char) (part : List Char)
    (parts : List (List Char)) :
    sep.intercalate ((c :: part) :: parts) = c :: sep.intercalate (part :: parts) := by
  cases parts with
  | nil => rw [List.intercalate_singleton, List.intercalate_singleton]
  | cons p ps =>
    rw [List.intercalate_cons_cons, List.intercalate_cons_cons, List.append_assoc, List.append_assoc,
      List.cons_append]

/-- The value of a string literal has a quote for every backslash and quote. -/
theorem unescaped_isReplaced (body : List Char) :
    IsReplaced ['\\', '"'] ['"'] body (unescaped body) := by
  fun_induction unescaped body with
  | case1 cs ih =>
    obtain ⟨part, parts, hparts, htext, hresult⟩ := ih
    refine ⟨[], part :: parts, fun p hp => ?_, ?_, ?_⟩
    · rcases List.mem_cons.1 hp with rfl | hp
      · exact fun h => absurd (List.infix_nil.1 h) (List.cons_ne_nil _ _)
      · exact hparts p hp
    · rw [List.intercalate_cons_cons, ← htext]
      rfl
    · rw [List.intercalate_cons_cons, ← hresult]
      rfl
  | case2 c cs hpair ih =>
    obtain ⟨part, parts, hparts, htext, hresult⟩ := ih
    refine ⟨c :: part, parts, fun p hp hinfix => ?_, ?_, ?_⟩
    · rcases List.mem_cons.1 hp with rfl | hp
      · rcases List.infix_cons_iff.1 hinfix with hbegins | hinfix
        · -- A backslash before the part begins no pair, as the text goes on with the part.
          obtain ⟨hc, later, hlater⟩ := List.cons_prefix_cons.1 hbegins
          rw [← hlater, List.cons_append, List.nil_append, intercalate_cons_part] at htext
          exact hpair _ hc.symm htext
        · exact hparts part List.mem_cons_self hinfix
      · exact hparts p (List.mem_cons_of_mem part hp) hinfix
    · rw [intercalate_cons_part, ← htext]
    · rw [intercalate_cons_part, ← hresult]
  | case3 =>
    refine ⟨[], [], fun p hp hinfix => ?_, rfl, rfl⟩
    rw [List.mem_singleton.1 hp] at hinfix
    exact absurd (List.infix_nil.1 hinfix) (List.cons_ne_nil _ _)

/-! ## The end of a literal -/

/-- The quote that closes a literal is the first one that follows no backslash, or the last one if every
quote follows one. -/
theorem isLiteral_iff {body rest : List Char} : IsLiteral body rest ↔
    (QuotesEscaped body ∧ body.getLast? ≠ some '\\') ∨
      (QuotesEscaped (body ++ '"' :: rest) ∧ '"' ∉ rest) := by
  constructor
  · rintro ⟨hescaped, hlast⟩
    by_cases hbackslash : body.getLast? = some '\\'
    · -- The closing quote follows a backslash, so it is escaped as those in the body are, and no other
      -- quote comes after it.
      refine .inr ⟨fun before after heq => ?_, hlast hbackslash⟩
      rcases List.append_eq_append_iff.1 heq with ⟨more, hbefore, hrest⟩ | ⟨more, hbody, hrest⟩
      · cases more with
        | nil =>
          rw [hbefore, List.append_nil]
          exact hbackslash
        | cons c more =>
          rw [(List.cons.inj hrest).2] at hlast
          exact absurd (List.mem_append_right more List.mem_cons_self) (hlast hbackslash)
      · cases more with
        | nil =>
          rw [hbody, List.append_nil] at hbackslash
          exact hbackslash
        | cons c more =>
          obtain ⟨rfl, -⟩ := List.cons.inj hrest
          exact hescaped before more hbody
    · exact .inl ⟨hescaped, hbackslash⟩
  · rintro (⟨hescaped, hlast⟩ | ⟨hescaped, hno⟩)
    · exact ⟨hescaped, fun h => absurd h hlast⟩
    · refine ⟨fun before after heq => ?_, fun _ => hno⟩
      refine hescaped before (after ++ '"' :: rest) ?_
      rw [heq, List.append_assoc, List.cons_append]

namespace Scan

/-- Pieces are scanned one after another. -/
theorem ofPieces_followedBy (line : Int) (ps qs : List Piece) : ofPieces line (ps ++ qs) =
    (ofPieces line ps).followedBy (ofPieces (line + lineFeeds (ps.map Piece.text).flatten) qs) := by
  induction ps generalizing line with
  | nil =>
    simp only [List.map_nil, List.flatten_nil, lineFeeds, List.count_nil]
    rw [Int.ofNat_zero, Int.add_zero]
    rfl
  | cons p ps ih =>
    rw [List.cons_append, ofPieces, ofPieces, ih, cons_followedBy, List.map_cons, List.flatten_cons,
      lineFeeds_append, Int.add_assoc]

/-- A quote without another one is passed over with all that follows. -/
theorem ofPieces_unterminated (line : Int) {cs : List Char} (h : '"' ∉ cs) :
    ofPieces line (pieces ('"' :: cs)) = ⟨[], [(line, .unterminatedString)], line + lineFeeds cs⟩ := by
  have hfits : Piece.Fits ⟨.fault .unterminatedString, '"' :: cs⟩ [] := ⟨cs, rfl, h, rfl⟩
  have hpieces := pieces_of_fits hfits
  rw [List.append_nil, pieces] at hpieces
  rw [hpieces, ofPieces, ofPieces, lineFeeds, List.count_cons_of_ne (by decide)]
  rfl

end Scan

namespace Log

/-- Faults are reported one after the other. -/
theorem scanFaults_append (log : Log) (faults later : List (Int × ScanFault)) :
    log.scanFaults (faults ++ later) = (log.scanFaults faults).scanFaults later :=
  List.foldl_append

/-- Where scanning a text comes to a quote, after some pieces, a string literal begins that ends at the
first quote that follows no backslash or, if there is none such, at the last quote of the text; this is
the match of its pattern. Its token is on the line of the quote, and scanning goes on after it, on that
line and as many more as there are line feeds in it. If there is no other quote, this is reported on the
line of the quote, and scanning ends. -/
theorem scanText_quote (log : Log) {text : String} {line : Int} {before : List Piece} {cs : List Char}
    (h : pieces text.toList = before ++ pieces ('"' :: cs)) :
    let earlier := Scan.ofPieces line before
    let quoteLine := line + Scan.lineFeeds (before.map Piece.text).flatten
    (∃ body rest, cs = body ++ '"' :: rest ∧
      ((QuotesEscaped body ∧ body.getLast? ≠ some '\\') ∨ (QuotesEscaped cs ∧ '"' ∉ rest)) ∧
      (Pattern.stringPattern.rests ('"' :: cs)).head? = some rest ∧
      (∃ value : String, IsReplaced ['\\', '"'] ['"'] body value.toList ∧
        ∀ inner ts, (Grammar.primary inner).Reads (⟨.string body, quoteLine⟩ :: ts)
          (.literal (.string value)) ts) ∧
      let later := Scan.ofText (String.ofList rest)
        (quoteLine + Scan.lineFeeds ('"' :: body ++ ['"']))
      log.scanText text line = ((log.scanFaults earlier.faults).scanFaults later.faults,
        earlier.followedBy { later with tokens := ⟨.string body, quoteLine⟩ :: later.tokens })) ∨
    ('"' ∉ cs ∧ Pattern.stringPattern.rests ('"' :: cs) = [] ∧
      log.scanText text line = ((log.scanFaults earlier.faults).staticError (.onLine quoteLine)
          "unterminated string",
        earlier.followedBy ⟨[], [(quoteLine, .unterminatedString)],
          quoteLine + Scan.lineFeeds cs⟩)) := by
  intro earlier quoteLine
  have hscan : Scan.ofText text line =
      earlier.followedBy (Scan.ofPieces quoteLine (pieces ('"' :: cs))) := by
    rw [Scan.ofText, h, Scan.ofPieces_followedBy]
  -- A later quote ends the literal, at one place or another. Without one it is unterminated, and what
  -- remains of the text is taken with it.
  rw [Pattern.rests_stringPattern]
  by_cases hquote : '"' ∈ cs
  · obtain ⟨body, rest, rfl, hliteral⟩ := exists_literal hquote
    refine .inl ⟨body, rest, rfl, isLiteral_iff.1 hliteral, Pattern.head?_rests_stringEnd hliteral,
      ⟨String.ofList (unescaped body), ?_, fun inner ts => rfl⟩, ?_⟩
    · rw [String.toList_ofList]
      exact unescaped_isReplaced body
    · rw [Scan.ofPieces_of_literal quoteLine hliteral] at hscan
      unfold scanText
      rw [hscan, Scan.ofText, String.toList_ofList]
      exact Prod.ext (scanFaults_append _ _ _) rfl
  · refine .inr ⟨hquote, Pattern.rests_stringEnd_of_not_mem hquote, ?_⟩
    rw [Scan.ofPieces_unterminated quoteLine hquote] at hscan
    unfold scanText
    rw [hscan]
    simp only [Scan.followedBy, scanFaults_append]
    rfl

/-- A string after a name, in which every quote follows a backslash, one of them a second backslash. -/
theorem scanText_quote_afterName :
    pieces "x \"a\\\\\"\n\\\" y".toList = [⟨.token (.identifier "x"), ['x']⟩, ⟨.blank, [' ']⟩] ++
        pieces ('"' :: "a\\\\\"\n\\\" y".toList) ∧
      ∃ body rest, "a\\\\\"\n\\\" y".toList = body ++ '"' :: rest ∧
        (Pattern.stringPattern.rests ('"' :: "a\\\\\"\n\\\" y".toList)).head? = some rest ∧
        (({} : Log).scanText "x \"a\\\\\"\n\\\" y" 1).2.tokens =
          ⟨.identifier "x", 1⟩ :: ⟨.string body, 1⟩ ::
            (Scan.ofText (String.ofList rest) (1 + Scan.lineFeeds ('"' :: body ++ ['"']))).tokens := by
  have h : pieces "x \"a\\\\\"\n\\\" y".toList =
      [⟨.token (.identifier "x"), ['x']⟩, ⟨.blank, [' ']⟩] ++
        pieces ('"' :: "a\\\\\"\n\\\" y".toList) := by decide +kernel
  -- There is a quote further on, so the string is closed.
  obtain ⟨body, rest, hbody, -, hmatch, -, hscan⟩ :=
    (@scanText_quote {} _ 1 _ _ h).resolve_right fun hno => hno.1 (by decide)
  exact ⟨h, body, rest, hbody, hmatch, congrArg (fun s => s.2.tokens) hscan⟩

end Log

end Treewalk
