import Treewalk.Proofs.Diagnostic.Log
import Treewalk.Proofs.Token.Append

/-!
# What comes after a text that is scanned

A text that ends with a line feed and has no faults is scanned in the same way whatever comes after it,
with one exception: a string that a quote with a backslash before it closes goes on if there is another
quote in what comes after the text (`Log.scanText_append_iff`).
-/

namespace Treewalk

namespace Scan

/-- What comes after a piece is determined by the whole. -/
theorem cons_inj {line : Int} {kind : PieceKind} {a b : Scan}
    (h : cons line kind a = cons line kind b) : a = b := by
  obtain ⟨tokens, faults, endLine⟩ := a
  obtain ⟨tokens', faults', endLine'⟩ := b
  cases kind with
  | token lexeme | fault f =>
    injection h with htokens hfaults hend
    simp_all
  | blank | comment => exact h

/-- A text that begins with a string is scanned with a string as its first token. -/
theorem ofPieces_of_literal (line : Int) {body rest : List Char} (h : IsLiteral body rest) :
    ofPieces line (pieces ('"' :: (body ++ '"' :: rest))) =
      cons line (.token (.string body))
        (ofPieces (line + lineFeeds ('"' :: body ++ ['"'])) (pieces rest)) := by
  have hfits : Piece.Fits ⟨.token (.string body), '"' :: body ++ ['"']⟩ rest :=
    ⟨by simp [Lexeme.written], h⟩
  have hpieces := pieces_of_fits hfits
  rw [List.append_assoc, List.singleton_append, List.cons_append] at hpieces
  rw [hpieces]
  rfl

/-- If a text is scanned before another one with a quote in it, none of its strings is closed by a quote
with a backslash before it. -/
theorem plainStrings_of_append (line : Int) {ps : List Piece} (hfit : FitTogether ps)
    (hend : EndsLine (ps.map Piece.text).flatten) (hfaults : (ofPieces line ps).faults = [])
    {more : List Char} (hquote : '"' ∈ more)
    (h : ofPieces line (pieces ((ps.map Piece.text).flatten ++ more)) =
      (ofPieces line ps).followedBy (ofPieces (ofPieces line ps).endLine (pieces more))) :
    (ofPieces line ps).PlainStrings := by
  induction ps generalizing line with
  | nil => nofun
  | cons p ps ih =>
    rw [List.map_cons, List.flatten_cons] at hend h
    rw [List.append_assoc] at h
    obtain ⟨hfault, hfaults⟩ := faults_of_cons hfaults
    have hplain : ∀ body, p.kind = .token (.string body) → body.getLast? ≠ some '\\' := by
      intro body hkind hlast
      obtain ⟨htext, hbody⟩ := hfit.1.token hkind
      rw [Lexeme.written, String.toList_ofList] at htext
      have hmem : '"' ∈ body ++ '"' :: ((ps.map Piece.text).flatten ++ more) :=
        List.mem_append_right body List.mem_cons_self
      obtain ⟨body', rest', hsplit, hbody'⟩ := exists_literal hmem
      -- Before a quote the string does not end where it did.
      rw [htext, List.cons_append, List.cons_append, List.append_assoc, List.singleton_append, hsplit,
        ofPieces_of_literal line hbody', ofPieces, hkind] at h
      have htokens := congrArg Scan.tokens h
      obtain rfl : body' = body := by
        injection (List.cons.inj htokens).1 with hlexeme
        injection hlexeme
      obtain rfl := (List.cons.inj (List.append_cancel_left hsplit)).2
      exact hbody'.last hlast (List.mem_append_right _ hquote)
    rw [ofPieces_append_of_fits line hfit.1 hend hfault (.inl hplain), ofPieces, endLine_cons,
      cons_followedBy] at h
    exact plainStrings_cons.2
      ⟨hplain, ih _ hfit.2 (hend.suffix (List.suffix_append _ _)) hfaults (cons_inj h)⟩

/-- Appended text is scanned apart if and only if no string can reach over to it. -/
theorem ofText_append_iff {text : String} {line : Int} (hend : text.toList.getLast? = some '\n')
    (hfaults : (ofText text line).faults = []) (more : String) :
    ofText (text ++ more) line =
      (ofText text line).followedBy (ofText more (ofText text line).endLine) ↔
      (ofText text line).PlainStrings ∨ '"' ∉ more.toList := by
  have hfit := fitTogether_pieces text.toList
  have hline : EndsLine ((pieces text.toList).map Piece.text).flatten := by
    rw [pieces_flatten]
    exact .of_getLast? hend
  have hflatten : ofText (text ++ more) line =
      ofPieces line (pieces (((pieces text.toList).map Piece.text).flatten ++ more.toList)) := by
    rw [pieces_flatten, ← String.toList_append]
    rfl
  rw [hflatten]
  constructor
  -- Of the two ways to fail only one is left if there is a quote: a string that ends with a backslash.
  · intro h
    by_cases hquote : '"' ∈ more.toList
    · exact .inl (plainStrings_of_append line hfit hline hfaults hquote h)
    · exact .inr hquote
  · exact ofPieces_append line hfit hline hfaults

end Scan

namespace Log

/-- A log is unchanged only if nothing is reported. -/
theorem eq_nil_of_scanFaults {log : Log} {faults : List (Int × ScanFault)}
    (h : log.scanFaults faults = log) : faults = [] := by
  have hdiagnostics := (log.reports_scanFaults faults).diagnostics
  rw [h] at hdiagnostics
  exact List.map_eq_nil_iff.1 (List.append_right_eq_self.1 hdiagnostics.symm)

/-- A text that ends with a line feed and has no faults is scanned before what comes after it if and only
if none of its strings is closed by a quote with a backslash before it, or there is no quote in what
comes after it. -/
theorem scanText_append_iff (log : Log) {text : String} {line : Int}
    (hend : text.toList.getLast? = some '\n') (hclean : (log.scanText text line).1 = log)
    (more : String) :
    (let s := (log.scanText text line).2
     let later := log.scanText more s.endLine
     log.scanText (text ++ more) line =
       (later.1, ⟨s.tokens ++ later.2.tokens, later.2.faults, later.2.endLine⟩)) ↔
      (log.scanText text line).2.PlainStrings ∨ '"' ∉ more.toList := by
  have hfaults : (Scan.ofText text line).faults = [] := eq_nil_of_scanFaults hclean
  refine Iff.trans ?_ (Scan.ofText_append_iff hend hfaults more)
  unfold scanText Scan.followedBy
  simp only [hfaults, List.nil_append, Prod.mk.injEq]
  exact ⟨fun h => h.2, fun h => ⟨by rw [h], h⟩⟩

/-- A name after a string that is closed by such a quote. -/
theorem scanText_append_nameAfterString :
    "\"a\\\"\n".toList.getLast? = some '\n' ∧ (({} : Log).scanText "\"a\\\"\n" 1).1 = {} ∧
      ¬(({} : Log).scanText "\"a\\\"\n" 1).2.PlainStrings ∧ '"' ∉ "b".toList ∧
      (let s := (({} : Log).scanText "\"a\\\"\n" 1).2
       let later := ({} : Log).scanText "b" s.endLine
       ({} : Log).scanText ("\"a\\\"\n" ++ "b") 1 =
         (later.1, ⟨s.tokens ++ later.2.tokens, later.2.faults, later.2.endLine⟩)) := by
  have hplain : ¬(({} : Log).scanText "\"a\\\"\n" 1).2.PlainStrings := fun h =>
    h ⟨.string ['a', '\\'], 1⟩ (by decide +kernel) ['a', '\\'] rfl rfl
  exact ⟨by decide, by decide +kernel, hplain, by decide,
    (scanText_append_iff {} (by decide) (by decide +kernel) "b").2 (.inr (by decide))⟩

/-- A quote after such a string: it goes on up to this quote, which is not reported. -/
theorem scanText_append_quoteAfterString :
    "\"a\\\"\n".toList.getLast? = some '\n' ∧ (({} : Log).scanText "\"a\\\"\n" 1).1 = {} ∧
      (let s := (({} : Log).scanText "\"a\\\"\n" 1).2
       let later := ({} : Log).scanText "\"" s.endLine
       ({} : Log).scanText ("\"a\\\"\n" ++ "\"") 1 ≠
         (later.1, ⟨s.tokens ++ later.2.tokens, later.2.faults, later.2.endLine⟩)) := by
  decide +kernel

end Log

end Treewalk
