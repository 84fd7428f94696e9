import Treewalk.Proofs.Diagnostic.Log
import Treewalk.Proofs.Token.Append

/-!
# Scanning a whole text

Nothing of a text is lost when it is scanned: it falls into pieces in one way, and each of these is a
token, blanks, a comment or a fault that is reported (`Log.scanText_covers`). Lines are counted by the line
feeds before a piece, whatever piece they are in, and tokens are as long as they can be.
-/

namespace Treewalk

/-- The lexeme that a piece is, if it is a token. -/
def PieceKind.lexeme? : PieceKind → Option Lexeme
  | .token lexeme => some lexeme
  | .blank | .comment | .fault _ => none

/-- What is wrong with a piece, if it is a fault. -/
def PieceKind.fault? : PieceKind → Option ScanFault
  | .fault f => some f
  | .blank | .comment | .token _ => none

/-- Pieces, each with its line: that of the first one and as many more as there are line feeds before. -/
def located (line : Int) (ps : List Piece) : List (Int × Piece) :=
  ps.mapIdx fun i p => (line + Scan.lineFeeds ((ps.take i).map Piece.text).flatten, p)

/-- What follows a word or a number does not belong to it, nor an equals sign to a symbol before it. -/
def Lexeme.Maximal (rest : List Char) : Lexeme → Prop
  | keyword _ | identifier _ => ∀ c ∈ rest.head?, isNamePart c = false
  | number digits _ => (∀ c ∈ rest.head?, Text.isDigit c = false) ∧
      ('.' ∉ digits.toList → ∀ c cs, rest = '.' :: c :: cs → Text.isDigit c = false)
  | symbol s => s ∈ [.bang, .equal, .less, .greater] → rest.head? ≠ some '='
  | string _ => True

/-- The pieces of a text that begins on a line, the scan of the text, and the log after it. -/
structure Log.Covers (log : Log) (line : Int) (text : List Char) (ps : List Piece)
    (after : Log × Scan) : Prop where
  /-- The text is its pieces, one after the other. -/
  flatten : (ps.map Piece.text).flatten = text
  ne_nil : ∀ p ∈ ps, p.text ≠ []
  /-- Each piece is a token, blanks, a comment or a fault where it stands. -/
  fits : FitTogether ps
  maximal : ∀ before p later lexeme, ps = before ++ p :: later → p.kind = .token lexeme →
    lexeme.Maximal (later.map Piece.text).flatten
  tokens : after.2.tokens =
    (located line ps).filterMap fun (line, p) => p.kind.lexeme?.map fun lexeme => ⟨lexeme, line⟩
  diagnostics : after.1.diagnostics.toList = log.diagnostics.toList ++
    (located line ps).filterMap fun (line, p) => p.kind.fault?.map fun f => ⟨some line, "", f.message⟩
  endLine : after.2.endLine = line + Scan.lineFeeds text

/-! ## Lines -/

/-- The pieces after the first are on the line to which it leads. -/
theorem located_cons (line : Int) (p : Piece) (ps : List Piece) :
    located line (p :: ps) = (line, p) :: located (line + Scan.lineFeeds p.text) ps := by
  unfold located
  rw [List.mapIdx_cons]
  congr 1
  · simp [Scan.lineFeeds]
  · congr 1
    funext i q
    rw [List.take_succ_cons, List.map_cons, List.flatten_cons, Scan.lineFeeds_append, Int.add_assoc]

namespace Scan

/-- The tokens of a scan are the pieces that are tokens, each on its line. -/
theorem tokens_ofPieces (line : Int) (ps : List Piece) : (ofPieces line ps).tokens =
    (located line ps).filterMap fun (line, p) => p.kind.lexeme?.map fun lexeme => ⟨lexeme, line⟩ := by
  induction ps generalizing line with
  | nil => rfl
  | cons p ps ih =>
    obtain ⟨kind, text⟩ := p
    rw [located_cons, List.filterMap_cons, ← ih, ofPieces]
    cases kind <;> rfl

/-- The faults of a scan are the pieces that are faults, each on its line. -/
theorem faults_ofPieces (line : Int) (ps : List Piece) : (ofPieces line ps).faults =
    (located line ps).filterMap fun (line, p) => p.kind.fault?.map fun f => (line, f) := by
  induction ps generalizing line with
  | nil => rfl
  | cons p ps ih =>
    obtain ⟨kind, text⟩ := p
    rw [located_cons, List.filterMap_cons, ← ih, ofPieces]
    cases kind <;> rfl

/-- A scan ends as many lines further as there are line feeds in its pieces. -/
theorem endLine_ofPieces (line : Int) (ps : List Piece) :
    (ofPieces line ps).endLine = line + lineFeeds (ps.map Piece.text).flatten := by
  induction ps generalizing line with
  | nil => simp [ofPieces, lineFeeds]
  | cons p ps ih =>
    rw [ofPieces, endLine_cons, ih, List.map_cons, List.flatten_cons, lineFeeds_append, Int.add_assoc]

end Scan

/-! ## Tokens -/

/-- Of pieces that fit together each fits what comes after it. -/
theorem FitTogether.fits {ps before later : List Piece} {p : Piece} (h : FitTogether ps)
    (hps : ps = before ++ p :: later) : p.Fits (later.map Piece.text).flatten := by
  subst hps
  induction before with
  | nil => exact h.1
  | cons q before ih => exact ih h.2

/-- A lexeme is as long as it can be where it fits. -/
theorem Lexeme.Fits.maximal {lexeme : Lexeme} {rest : List Char} (h : lexeme.Fits rest) :
    lexeme.Maximal rest := by
  have hword : ∀ {text : List Char}, Longest IsWord text rest →
      ∀ c ∈ rest.head?, isNamePart c = false := by
    intro text hlongest
    obtain ⟨c, cs, rfl, -⟩ := id hlongest.holds
    exact (longest_isWord.1 hlongest).2.stop
  cases lexeme with
  | symbol s =>
    intro hs hhead
    obtain ⟨cs, rfl⟩ := List.head?_eq_some_iff.1 hhead
    -- With the equality sign the symbol would be a longer one.
    have hequal : IsSymbol (s.spelling.toList ++ ['=']) := by
      simp only [List.mem_cons, List.not_mem_nil, or_false] at hs
      rcases hs with rfl | rfl | rfl | rfl
      exacts [⟨.bangEqual, rfl⟩, ⟨.equalEqual, rfl⟩, ⟨.lessEqual, rfl⟩, ⟨.greaterEqual, rfl⟩]
    cases h.1.longest ['='] ⟨cs, rfl⟩ hequal
  | keyword k => exact hword h
  | identifier name => exact hword h.1
  | number digits value =>
    obtain ⟨hlongest, whole, fraction, hnumeral, -⟩ := h
    obtain ⟨hrest, hfraction⟩ := (longest_isNumeral hnumeral).1 hlongest
    refine ⟨hrest, fun hpoint c cs heq => ?_⟩
    subst heq
    -- Without a point there is no fraction, and then a point with a digit after it does not follow.
    have hnil : fraction = [] := Decidable.byContradiction fun hne => hpoint <| by
      rw [hnumeral.eq, if_neg hne]
      exact List.mem_append_right whole List.mem_cons_self
    refine Bool.eq_false_iff.2 fun hc => ?_
    have htake := hfraction hnil
    rw [fractionDigits, List.takeWhile_cons_of_pos hc] at htake
    cases htake
  | string body => trivial

namespace Log

/-- Scanning covers a text with pieces, and in one way only. -/
theorem scanText_covers (log : Log) (text : String) (line : Int) :
    ∃! ps, log.Covers line text.toList ps (log.scanText text line) := by
  have hfit := fitTogether_pieces text.toList
  refine ⟨pieces text.toList, ?_, ?_⟩
  · refine ⟨pieces_flatten _, fun p hp => ?_, hfit, ?_, Scan.tokens_ofPieces line _, ?_, ?_⟩
    · obtain ⟨rest, hp⟩ := hfit.exists_fits hp
      exact hp.ne_nil
    -- A token is as long as it can be, since it fits.
    · intro before p later lexeme hps hkind
      exact ((hfit.fits hps).token hkind).2.maximal
    · have hreports := log.reports_scanFaults (Scan.ofText text line).faults
      unfold scanText
      rw [hreports.diagnostics, Scan.ofText, Scan.faults_ofPieces, List.map_filterMap]
      simp only [Option.map_map]
      rfl
    · show (Scan.ofPieces line (pieces text.toList)).endLine = _
      rw [Scan.endLine_ofPieces, pieces_flatten]
  -- Pieces that fit together are those that the scanner cuts.
  · intro ps hps
    rw [← hps.flatten, pieces_of_fitTogether hps.fits]

end Log

end Treewalk
