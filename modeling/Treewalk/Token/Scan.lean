import Treewalk.Token.Piece

/-!
# Scanning

`Scan.ofText` reads a text into its tokens and its faults, each with its line. A token or a fault is
on the line on which its piece begins: the line of the text's first character plus the line feeds
before the piece. Scanning never stops early.
-/

namespace Treewalk

/-- What a text holds: its tokens, its faults with their lines, and the line of its end. -/
structure Scan where
  tokens : List Token
  faults : List (Int × ScanFault)
  endLine : Int
deriving DecidableEq

namespace Scan

/-- The number of line feeds of a text. -/
def lineFeeds (text : List Char) : Int := (text.count '\n' : Nat)

/-- A scan with one more piece, on the given line, before all others. -/
def cons (line : Int) (kind : PieceKind) (later : Scan) : Scan :=
  match kind with
  | .token lexeme => { later with tokens := ⟨lexeme, line⟩ :: later.tokens }
  | .fault f => { later with faults := (line, f) :: later.faults }
  | .blank | .comment => later

/-- The scan of pieces of which the first begins on the given line. -/
def ofPieces (line : Int) : List Piece → Scan
  | [] => ⟨[], [], line⟩
  | p :: ps => cons line p.kind (ofPieces (line + lineFeeds p.text) ps)

/-- The scan of a text whose first character is on the given line. -/
def ofText (text : String) (line : Int) : Scan := ofPieces line (pieces text.toList)

/-- The listing of all tokens and of the end. -/
def listing (s : Scan) : List String := s.tokens.map Token.listing ++ [endListing s.endLine]

end Scan

/-- Whether more braces or more parentheses are opened than closed in a text. Those in strings and
comments do not count, and faults are passed over. -/
def needsContinuation (text : String) : Bool :=
  let lexemes := (Scan.ofText text 1).tokens.map Token.lexeme
  let count (s : Symbol) := lexemes.count (.symbol s)
  count .rightBrace < count .leftBrace || count .rightParen < count .leftParen

end Treewalk
