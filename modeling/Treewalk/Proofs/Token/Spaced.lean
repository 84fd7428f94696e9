import Treewalk.Proofs.Token.Coverage

/-!
# Tokens with spaces between them

The tokens of any text, written one after the other with single spaces between them, are a text with the
same tokens and without faults (`Log.scanText_spaced`). A space stops whatever a token could go on with.
The exception is a string that a quote with a backslash before it closes: there is no quote after it in
the first text, and so there is none after it in the second.
-/

namespace Treewalk

/-- The tokens of a scan as they are written, with a space between each two. -/
def Scan.spaced (s : Scan) : String := " ".intercalate (s.tokens.map fun t => t.lexeme.written)

namespace Lexeme

variable {l : Lexeme} {ls : List Lexeme}

/-- Lexemes as they are written after another one, each with a space before it. -/
def following (ls : List Lexeme) : List Char := ls.flatMap fun l => ' ' :: l.written.toList

/-- The first of several lexemes comes after a space. -/
theorem following_cons : following (l :: ls) = ' ' :: (l.written.toList ++ following ls) := rfl

/-- Spaced lexemes are the first one and what follows it. -/
theorem toList_intercalate_written :
    (" ".intercalate ((l :: ls).map written)).toList = l.written.toList ++ following ls := by
  induction ls generalizing l with
  | nil =>
    rw [List.map_singleton, String.intercalate_singleton, following, List.flatMap_nil, List.append_nil]
  | cons l' ls ih =>
    rw [List.map_cons, List.map_cons, String.intercalate_cons_cons, ← List.map_cons, String.toList_append,
      String.toList_append, ih, List.append_assoc]
    rfl

end Lexeme

/-- The lexemes among some pieces. -/
def lexemes (ps : List Piece) : List Lexeme := ps.filterMap fun p => p.kind.lexeme?

/-- A token counts as its lexeme. -/
theorem lexemes_token (lexeme : Lexeme) (text : List Char) (ps : List Piece) :
    lexemes (⟨.token lexeme, text⟩ :: ps) = lexeme :: lexemes ps := rfl

/-- The lexemes of a scan are those of its pieces. -/
theorem Scan.lexemes_ofPieces (line : Int) (ps : List Piece) :
    (ofPieces line ps).tokens.map Token.lexeme = lexemes ps := by
  induction ps generalizing line with
  | nil => rfl
  | cons p ps ih =>
    obtain ⟨kind, text⟩ := p
    cases kind with
    | token lexeme => exact congrArg (lexeme :: ·) (ih _)
    | blank | comment | fault => exact ih _

/-- No quote comes in. -/
theorem FitTogether.not_mem_following {ps : List Piece} (h : FitTogether ps)
    (hquote : '"' ∉ (ps.map Piece.text).flatten) : '"' ∉ Lexeme.following (lexemes ps) := by
  induction ps with
  | nil => exact List.not_mem_nil
  | cons p ps ih =>
    obtain ⟨kind, text⟩ := p
    rw [List.map_cons, List.flatten_cons, List.mem_append, not_or] at hquote
    have hlater := ih h.2 hquote.2
    cases kind with
    | token lexeme =>
      obtain ⟨rfl, -⟩ := h.1
      rw [lexemes_token, Lexeme.following_cons, List.mem_cons, List.mem_append, not_or, not_or]
      exact ⟨by decide, hquote.1, hlater⟩
    | blank | comment | fault => exact hlater

/-- Before others with spaces between them a lexeme fits if it fits where it was. -/
theorem FitTogether.fits_following {ps : List Piece} (h : FitTogether ps) {lexeme : Lexeme}
    (hfits : lexeme.Fits (ps.map Piece.text).flatten) : lexeme.Fits (Lexeme.following (lexemes ps)) := by
  refine hfits.transfer ?_ fun body _ _ hquote => h.not_mem_following hquote
  -- Nothing comes before the first space.
  have hspace : (Lexeme.following (lexemes ps)).takeWhile (!isSpacing ·) = [] := by
    cases lexemes ps with
    | nil => rfl
    | cons l ls => rfl
  rw [hspace]
  exact List.nil_prefix

namespace Scan

/-- The space before a lexeme is no part of it. -/
theorem ofPieces_following_cons (line : Int) (l : Lexeme) (ls : List Lexeme) :
    ofPieces line (pieces (Lexeme.following (l :: ls))) =
      ofPieces line (pieces (l.written.toList ++ Lexeme.following ls)) := by
  have hspace : ∀ c ∈ [' '], isSpacing c = true := fun c hc => by
    rw [List.mem_singleton.1 hc]
    rfl
  have hscan := ofPieces_spacing line hspace (l.written.toList ++ Lexeme.following ls)
  rwa [show lineFeeds [' '] = 0 from rfl, Int.add_zero] at hscan

/-- Lexemes of pieces that fit together, each behind a space, are scanned again without a fault. -/
theorem ofPieces_following {ps : List Piece} (h : FitTogether ps) (line : Int) :
    (ofPieces line (pieces (Lexeme.following (lexemes ps)))).faults = [] ∧
      (ofPieces line (pieces (Lexeme.following (lexemes ps)))).tokens.map Token.lexeme = lexemes ps := by
  induction ps generalizing line with
  | nil =>
    rw [show Lexeme.following (lexemes []) = [] from rfl, pieces]
    exact ⟨rfl, rfl⟩
  | cons p ps ih =>
    obtain ⟨kind, text⟩ := p
    cases kind with
    -- The token is cut off where it was, as it has a space behind it. The others follow by induction.
    | token lexeme =>
      obtain ⟨rfl, hfits⟩ := h.1
      obtain ⟨hfaults, htokens⟩ := ih h.2 (line + lineFeeds lexeme.written.toList)
      have hpiece : Piece.Fits ⟨.token lexeme, lexeme.written.toList⟩ (Lexeme.following (lexemes ps)) :=
        ⟨rfl, h.2.fits_following hfits⟩
      have hscan : ofPieces line (pieces (Lexeme.following (lexeme :: lexemes ps))) =
          cons line (.token lexeme) (ofPieces (line + lineFeeds lexeme.written.toList)
            (pieces (Lexeme.following (lexemes ps)))) := by
        rw [ofPieces_following_cons, pieces_of_fits hpiece]
        rfl
      rw [lexemes_token, hscan]
      exact ⟨hfaults, congrArg (lexeme :: ·) htokens⟩
    -- Other pieces are dropped.
    | blank | comment | fault => exact ih h.2 line

/-- The tokens of a text with spaces between them are scanned as they are after another token. -/
theorem ofText_spaced (text : String) (line line' : Int) : ofText (ofText text line).spaced line' =
    ofPieces line' (pieces (Lexeme.following (lexemes (pieces text.toList)))) := by
  have hwritten : (ofText text line).tokens.map (fun t => t.lexeme.written) =
      (lexemes (pieces text.toList)).map Lexeme.written := by
    rw [← lexemes_ofPieces line, List.map_map]
    rfl
  unfold spaced
  rw [hwritten]
  cases lexemes (pieces text.toList) with
  | nil => rfl
  | cons l ls =>
    unfold ofText
    rw [Lexeme.toList_intercalate_written, ofPieces_following_cons]

end Scan

namespace Log

/-- The tokens of a text with spaces between them are scanned as they were, and nothing is reported. -/
theorem scanText_spaced (log : Log) (text : String) (line line' : Int) :
    (log.scanText (log.scanText text line).2.spaced line').1 = log ∧
      (log.scanText (log.scanText text line).2.spaced line').2.tokens.map Token.lexeme =
        (log.scanText text line).2.tokens.map Token.lexeme := by
  obtain ⟨hfaults, htokens⟩ := Scan.ofPieces_following (fitTogether_pieces text.toList) line'
  unfold scanText
  simp only [Scan.ofText_spaced, hfaults, htokens]
  exact ⟨rfl, (Scan.lexemes_ofPieces line _).symm⟩

end Log

end Treewalk
