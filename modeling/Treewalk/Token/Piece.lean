import Treewalk.Token
import Treewalk.Number.Read

/-!
# Pieces of a text

A text falls into pieces: runs of blanks, comments, tokens, and stretches that are skipped because of
a fault. `cut` says what the first piece of a text is and how many characters it has, by the first
character or two alone wherever that is enough; `pieces` cuts a whole text.

No piece is empty (`cut_length_pos`), so cutting ends, and the pieces of a text put together are the
text (`pieces_flatten`).
-/

namespace Treewalk

/-- What can be wrong with a stretch of text. -/
inductive ScanFault where
  | unknownCharacter (c : Char)
  | unterminatedString
  | unmatchedComment
deriving DecidableEq, Repr

/-- The message for a fault of a text. -/
def ScanFault.message : ScanFault → String
  | unknownCharacter c => "unknown character '" ++ String.singleton c ++ "'"
  | unterminatedString => "unterminated string"
  | unmatchedComment => "unmatched comments"

/-- What a piece of a text is. -/
inductive PieceKind where
  | blank
  | comment
  | token (lexeme : Lexeme)
  | fault (f : ScanFault)
deriving DecidableEq

/-- A stretch of a text and what it is. -/
structure Piece where
  kind : PieceKind
  text : List Char
deriving DecidableEq

/-- The characters that separate tokens. -/
def isSpacing (c : Char) : Bool := c = ' ' || c = '\t' || c = '\r' || c = '\n'

/-- The characters that an identifier begins with. -/
def isNameStart (c : Char) : Bool := c.isAlpha || c = '_'

/-- The characters that an identifier goes on with. -/
def isNamePart (c : Char) : Bool := c.isAlphanum || c = '_'

/-- Where a block comment ends: it is closed after so many characters, or it is not, and the text goes
on after so many characters. -/
inductive CommentEnd where
  | closed (length : Nat)
  | unmatched (length : Nat)
deriving DecidableEq, Repr

/-- Looks for the end of a block comment in the text that remains, with `depth` further levels open
inside it, `seen` characters read, and `resume` the length of what is skipped if no end is found: it
ends after the last mark that closed an inner level. -/
def commentEnd (depth seen resume : Nat) : List Char → CommentEnd
  | '/' :: '*' :: cs => commentEnd (depth + 1) (seen + 2) resume cs
  | '*' :: '/' :: cs =>
    match depth with
    | 0 => .closed (seen + 2)
    | inner + 1 => commentEnd inner (seen + 2) (seen + 2) cs
  | _ :: cs => commentEnd depth (seen + 1) resume cs
  | [] => .unmatched resume

/-- The length of a string literal, from the text after its opening quote: `seen` characters are read,
and `escaped` is the length up to the last quote that a backslash precedes. The first quote without a
backslash closes the literal; failing that, the last quote of the text does. -/
def stringLength? (seen : Nat) (escaped : Option Nat) : List Char → Option Nat
  | '\\' :: '"' :: cs => stringLength? (seen + 2) (some (seen + 2)) cs
  | '"' :: _ => some (seen + 1)
  | _ :: cs => stringLength? (seen + 1) escaped cs
  | [] => escaped

/-- The digits after the point of a number, from the text after its whole part: none unless a digit
follows the point. -/
def fractionDigits : List Char → List Char
  | '.' :: cs => cs.takeWhile Text.isDigit
  | _ => []

/-- The lexeme of a word. -/
def wordLexeme (word : String) : Lexeme :=
  match Keyword.ofSpelling? word with
  | some k => .keyword k
  | none => .identifier word

/-- The number literal at the beginning of a text, and its length. -/
def cutNumber (text : List Char) : PieceKind × Nat :=
  let whole := text.takeWhile Text.isDigit
  let fraction := fractionDigits (text.dropWhile Text.isDigit)
  let length := whole.length + (if fraction = [] then 0 else fraction.length + 1)
  let value :=
    Number.ofDigits (whole.filterMap Text.digitValue?) (fraction.filterMap Text.digitValue?)
  (.token (.number (String.ofList (text.take length)) value), length)

/-- The block comment whose opening mark the text follows, and its length with the mark. -/
def cutComment (cs : List Char) : PieceKind × Nat :=
  match commentEnd 0 2 2 cs with
  | .closed length => (.comment, length)
  | .unmatched length => (.fault .unmatchedComment, length)

/-- The string literal whose opening quote the text follows, and its length with the quote. -/
def cutString (cs : List Char) : PieceKind × Nat :=
  match stringLength? 0 none cs with
  | some length => (.token (.string (cs.take (length - 1))), 1 + length)
  | none => (.fault .unterminatedString, 1 + cs.length)

/-- The word at the beginning of the text `c :: cs`, and its length. -/
def cutWord (c : Char) (cs : List Char) : PieceKind × Nat :=
  let more := cs.takeWhile isNamePart
  (.token (wordLexeme (String.ofList (c :: more))), 1 + more.length)

/-- The symbol at the beginning of the text `c :: cs`, and its length. -/
def cutSymbol (c : Char) (cs : List Char) : PieceKind × Nat :=
  match (if cs.head? = some '=' then Symbol.ofCharEqual? c else none), Symbol.ofChar? c with
  | some s, _ => (.token (.symbol s), 2)
  | none, some s => (.token (.symbol s), 1)
  | none, none => (.fault (.unknownCharacter c), 1)

/-- The first piece of the text `c :: cs`, and its length. -/
def cut (c : Char) (cs : List Char) : PieceKind × Nat :=
  if isSpacing c then (.blank, 1 + (cs.takeWhile isSpacing).length)
  else if c = '/' ∧ cs.head? = some '/' then
    (.comment, 1 + (cs.takeWhile (· ≠ '\n')).length)
  else if c = '/' ∧ cs.head? = some '*' then cutComment cs.tail
  else if c = '"' then cutString cs
  else if Text.isDigit c then cutNumber (c :: cs)
  else if isNameStart c then cutWord c cs
  else cutSymbol c cs

/-- A comment that is left at any depth ends after the characters read so far. -/
theorem commentEnd_length (depth : Nat) {seen resume : Nat} (cs : List Char) (h : 0 < resume)
    (hs : 0 < seen) :
    match commentEnd depth seen resume cs with
    | .closed length => 0 < length
    | .unmatched length => 0 < length := by
  fun_induction commentEnd depth seen resume cs with
  | case1 _ _ _ _ ih => exact ih h (by omega)
  | case2 => exact Nat.succ_pos _
  | case3 _ _ _ _ ih => exact ih (by omega) (by omega)
  | case4 _ _ _ _ _ _ _ ih => exact ih h (by omega)
  | case5 => exact h

/-- No piece is empty. -/
theorem cut_length_pos (c : Char) (cs : List Char) : 0 < (cut c cs).2 := by
  unfold cut
  -- Each way to cut takes the first character at least.
  split
  · simp only; omega
  split
  · simp only; omega
  split
  · have := commentEnd_length 0 cs.tail Nat.two_pos Nat.two_pos
    unfold cutComment
    split <;> simp_all
  split
  · unfold cutString
    split <;> simp only <;> omega
  split
  · next h =>
    simp only [cutNumber, List.takeWhile_cons, h, if_true, List.length_cons]
    omega
  split
  · simp only [cutWord]; omega
  unfold cutSymbol
  split <;> simp

/-- The pieces of a text, in order. -/
def pieces : List Char → List Piece
  | [] => []
  | c :: cs =>
    ⟨(cut c cs).1, (c :: cs).take (cut c cs).2⟩ :: pieces ((c :: cs).drop (cut c cs).2)
termination_by text => text.length
decreasing_by
  have := cut_length_pos c cs
  simp only [List.length_drop, List.length_cons]
  omega

/-- The pieces of a text put together are the text. -/
theorem pieces_flatten (text : List Char) : ((pieces text).map Piece.text).flatten = text := by
  fun_induction pieces text with
  | case1 => rfl
  | case2 c cs ih => rw [List.map_cons, List.flatten_cons, ih, List.take_append_drop]

end Treewalk
