import Treewalk.Number.Written
import Treewalk.Text.Quoted

/-!
# Tokens

A token is a lexeme and the line on which it begins. A lexeme is a symbol or a keyword, of which each
has one spelling, or an identifier, a number or a string. `Lexeme.written` gives back the text that a
lexeme was cut from, and `Token.listing` is the form in which tokens are listed.
-/

namespace Treewalk

/-- Operators and punctuation. -/
inductive Symbol where
  | leftParen | rightParen | leftBrace | rightBrace | comma | dot | semicolon
  | minus | plus | star | slash
  | bang | bangEqual | equal | equalEqual | less | lessEqual | greater | greaterEqual
deriving DecidableEq, Repr

namespace Symbol

/-- The text of a symbol. -/
def spelling : Symbol → String
  | leftParen => "("
  | rightParen => ")"
  | leftBrace => "\x7b"
  | rightBrace => "\x7d"
  | comma => ","
  | dot => "."
  | semicolon => ";"
  | minus => "-"
  | plus => "+"
  | star => "*"
  | slash => "/"
  | bang => "!"
  | bangEqual => "!="
  | equal => "="
  | equalEqual => "=="
  | less => "<"
  | lessEqual => "<="
  | greater => ">"
  | greaterEqual => ">="

/-- The name of a symbol in listings. -/
def name : Symbol → String
  | leftParen => "LEFT_PAREN"
  | rightParen => "RIGHT_PAREN"
  | leftBrace => "LEFT_BRACE"
  | rightBrace => "RIGHT_BRACE"
  | comma => "COMMA"
  | dot => "DOT"
  | semicolon => "SEMICOLON"
  | minus => "MINUS"
  | plus => "PLUS"
  | star => "STAR"
  | slash => "SLASH"
  | bang => "BANG"
  | bangEqual => "BANG_EQUAL"
  | equal => "EQUAL"
  | equalEqual => "EQUAL_EQUAL"
  | less => "LESS"
  | lessEqual => "LESS_EQUAL"
  | greater => "GREATER"
  | greaterEqual => "GREATER_EQUAL"

/-- The symbol of one character. -/
def ofChar? : Char → Option Symbol
  | '(' => some leftParen
  | ')' => some rightParen
  | '{' => some leftBrace
  | '}' => some rightBrace
  | ',' => some comma
  | '.' => some dot
  | ';' => some semicolon
  | '-' => some minus
  | '+' => some plus
  | '*' => some star
  | '/' => some slash
  | '!' => some bang
  | '=' => some equal
  | '<' => some less
  | '>' => some greater
  | _ => none

/-- The symbol of a character that an equals sign follows. -/
def ofCharEqual? : Char → Option Symbol
  | '!' => some bangEqual
  | '=' => some equalEqual
  | '<' => some lessEqual
  | '>' => some greaterEqual
  | _ => none

end Symbol

/-- The words that are not identifiers. -/
inductive Keyword where
  | and_ | class_ | else_ | false_ | for_ | fn | if_ | nil | or_ | print | return_ | super | this
  | true_ | var | while_
deriving DecidableEq, Repr

namespace Keyword

/-- The text of a keyword. -/
def spelling : Keyword → String
  | and_ => "and"
  | class_ => "class"
  | else_ => "else"
  | false_ => "false"
  | for_ => "for"
  | fn => "fn"
  | if_ => "if"
  | nil => "nil"
  | or_ => "or"
  | print => "print"
  | return_ => "return"
  | super => "super"
  | this => "this"
  | true_ => "true"
  | var => "var"
  | while_ => "while"

/-- The name of a keyword in listings. -/
def name : Keyword → String
  | and_ => "AND"
  | class_ => "CLASS"
  | else_ => "ELSE"
  | false_ => "FALSE"
  | for_ => "FOR"
  | fn => "FN"
  | if_ => "IF"
  | nil => "NIL"
  | or_ => "OR"
  | print => "PRINT"
  | return_ => "RETURN"
  | super => "SUPER"
  | this => "THIS"
  | true_ => "TRUE"
  | var => "VAR"
  | while_ => "WHILE"

/-- Every keyword. -/
def all : List Keyword :=
  [and_, class_, else_, false_, for_, fn, if_, nil, or_, print, return_, super, this, true_, var,
    while_]

/-- The keyword with a spelling. -/
def ofSpelling? (word : String) : Option Keyword := all.find? (·.spelling == word)

/-- The list of keywords is complete. -/
theorem mem_all (k : Keyword) : k ∈ all := by cases k <;> decide

end Keyword

/-- What a token is, its place in the text aside. -/
inductive Lexeme where
  | symbol (s : Symbol)
  | keyword (k : Keyword)
  | identifier (name : String)
  /-- A number literal: its digits as they were written, and the number they name. -/
  | number (digits : String) (value : Float)
  /-- A string literal, given by the characters between its quotes. -/
  | string (body : List Char)
deriving DecidableEq

/-- The characters that a string literal stands for: a backslash goes where a quote follows it, and
all else is as it is written. -/
def unescaped : List Char → List Char
  | '\\' :: '"' :: cs => '"' :: unescaped cs
  | c :: cs => c :: unescaped cs
  | [] => []

namespace Lexeme

/-- The text of a lexeme. -/
def written : Lexeme → String
  | symbol s => s.spelling
  | keyword k => k.spelling
  | identifier name => name
  | number digits _ => digits
  | string body => String.ofList ('"' :: body ++ ['"'])

/-- The name of a lexeme's kind in listings. -/
def kind : Lexeme → String
  | symbol s => s.name
  | keyword k => k.name
  | identifier _ => "IDENTIFIER"
  | number .. => "NUMBER"
  | string _ => "STRING"

/-- How a listing shows what a lexeme holds beside its kind. -/
def payload? : Lexeme → Option String
  | symbol _ | keyword _ => none
  | identifier name => some (Text.quoted name)
  | number _ value => some (Number.written value)
  | string body => some (String.ofList (Text.quotedChars (unescaped body)))

end Lexeme

/-- A lexeme and the line on which it begins. -/
structure Token where
  lexeme : Lexeme
  line : Int
deriving DecidableEq

/-- A token as listings show it: its kind, what it holds, and its line. -/
def Token.listing (t : Token) : String :=
  match t.lexeme.payload? with
  | some payload => t.lexeme.kind ++ "(" ++ payload ++ ")@" ++ toString t.line
  | none => t.lexeme.kind ++ "@" ++ toString t.line

/-- How a listing shows the end of a text, on its last line. -/
def endListing (line : Int) : String := "EOF@" ++ toString line

end Treewalk
